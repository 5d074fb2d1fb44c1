import TimedTasks.Proofs.MidTurn
import TimedTasks.Proofs.Mirror
import TimedTasks.Proofs.Stopping
/-!
What a shutdown leaves alone. A run in which an executor is shut down is set beside the same run
without that call. The tasks that the shutdown stops are veiled in both, and every other task stands
for itself. As long as nothing but a stopped task refers to the executor or to a stopped task, and a
stopped task touches nothing but itself, the two runs stay side by side.
-/

namespace TimedTasks

open World

variable {V : Type}

/-- Where in a run a call is made. -/
inductive Place (V : Type) where
  /-- Outside, between two turns. -/
  | outside
  /-- In the body of a child, in the middle of its turn. The body has some steps left, a periodic
  child may start so many more runs in this turn, and so many turns are taken after it. -/
  | body (i : Nat) (steps : List (Step V)) (rounds turns : Nat)

namespace Place

variable (p : Place V)

/-- The child whose body makes the call. -/
def caller? : Place V → Option Nat
  | outside => none
  | body i .. => some i

/-- How many entries of the log tell of a call there. -/
def noted : Place V → Nat
  | outside => 0
  | body .. => 1

/-- A child in the middle of its turn is set apart. -/
def acting (i j : Nat) : Prop := p.caller? = some i ∧ i = j

end Place

namespace World

/-- How a run goes on from a place if some calls are made there. -/
def onward (w : World V) (calls : List (Call V)) : Place V → World V
  | .outside => w.after (calls.map .call)
  | .body i steps rounds turns => (w.goOn i (calls.map .act ++ steps) rounds).turns turns

/-- Whether a name stands for a task that a shutdown stops. -/
def StoppedName (w : World V) (e : Nat) (name : String) : Prop :=
  ∃ h, w.futureNames.get? name = some h ∧ w.StoppedCell e h.cell

/-- A run beside the same run without the tasks that a shutdown of an executor stops. -/
def sparing (w : World V) (e : Nat) (p : Place V) : Pairing where
  cell a b := a = b ∧ ¬ w.StoppedCell e a
  child i j := i = j ∧ ¬ w.StoppedChild e i
  executor := e
  sealed := True
  shuns
    | .future n => w.StoppedName e n
    | .executor n => w.executorNames.get? n = some e
    | .batch n => ∃ k : Nat, w.StoppedName e (n ++ "." ++ toString k)
  own := w.StoppedName e
  own_shuns _ := id
  batch_shuns _ k h := ⟨k, h⟩
  keeps kind := ∀ x, w.executors[e]? = some x → stopsAtShutdown x.settings kind = false
  past i j := i = j ∧ w.Past i
  start i _ := runsOf w i
  seenLeft := w.log.length
  seenRight := w.log.length + p.noted

/-- Whether the tasks that a shutdown of an executor stops, and the executor itself, are apart from
all that is left to do. A stopped task only waits, looks around, and cancels or renames itself. What
the other tasks, the waiters and the parked threads have left to do does not name the executor or a
stopped task, and no task waits for one. -/
structure Apart (w : World V) (e : Nat) (p : Place V) : Prop where
  stopped : ∀ i child, w.children[i]? = some child → w.Stops e child →
    child.work.Tame (w.sparing e p) child.runs ∧
      ∀ on rest, child.stage = .suspended on rest →
        p.caller? = some i ∨ ∀ x ∈ rest, x.Tame (w.sparing e p)
  others : ∀ i child, w.children[i]? = some child → ¬ w.Stops e child →
    (w.Past i ∨ (w.sparing e p).Ahead child.runs child.work) ∧
      ∀ on rest, child.stage = .suspended on rest →
        (p.caller? = some i ∨ (w.sparing e p).Polite (Step.mentionsOf rest)) ∧
          ∀ c joined, on = .cell c joined → ¬ w.StoppedCell e c
  waiters : ∀ x ∈ w.waiters, (x.stage = .created → (w.sparing e p).MayBegin x.request) ∧
    (x.stage ≠ .ended → (w.sparing e p).MayName x.name x.request)
  threads : ∀ n c, w.threadNames.get? n = some c → ¬ w.StoppedCell e c
  acting : ∀ i steps rounds turns, p = .body i steps rounds turns →
    w.StoppedChild e i ∧ (∀ x ∈ steps, x.Tame (w.sparing e p)) ∨
      ¬ w.StoppedChild e i ∧ (w.sparing e p).Polite (Step.mentionsOf steps)

/-! ## The two runs before the call -/

section Before

variable {w : World V} {e i c : Nat} {p : Place V} {child : Child V} {f : Focus}

theorem sparing_left_cell : (w.sparing e p).left.cell c ↔ w.StoppedCell e c :=
  ⟨fun h => by_contra fun hn => h c ⟨rfl, hn⟩, fun h _ hn => hn.2 h⟩

theorem sparing_left_child : (w.sparing e p).left.child i ↔ w.StoppedChild e i :=
  ⟨fun h => by_contra fun hn => h i ⟨rfl, hn⟩, fun h _ hn => hn.2 h⟩

theorem sparing_right_cell : (w.sparing e p).right.cell c ↔ w.StoppedCell e c :=
  ⟨fun h => by_contra fun hn => h c ⟨rfl, hn⟩, fun h _ hn => hn.2 (hn.1 ▸ h)⟩

theorem sparing_right_child : (w.sparing e p).right.child i ↔ w.StoppedChild e i :=
  ⟨fun h => by_contra fun hn => h i ⟨rfl, hn⟩, fun h _ hn => hn.2 (hn.1 ▸ h)⟩

/-- A task that runs once is past its start when its run is under way. -/
theorem past_of_underWay (hc : w.children[i]? = some child) (hk : child.work.kind ≠ .periodic)
    (hway : w.underWay child.cell = true) : w.Past i := by
  refine ⟨child, hc, .inr ⟨hk, ?_⟩⟩
  unfold underWay at hway
  cases hfind : w.history.reverse.findSome? fun p => p.2.opens? child.cell with
  | none => simp [hfind] at hway
  | some b =>
    obtain rfl : b = true := by simpa [hfind] using hway
    obtain ⟨⟨t, h⟩, hm, hopens⟩ := List.exists_of_findSome?_eq_some hfind
    cases h with
    | called k =>
      obtain rfl : k = child.cell := by simpa [Happening.opens?] using hopens
      exact ⟨t, List.mem_reverse.mp hm⟩
    | _ => simp [Happening.opens?] at hopens

/-- A child that is not stopped is past its start, or its executor lets it go on. -/
theorem kept_of_not_stops (hc : w.children[i]? = some child) (hs : ¬ w.Stops e child) :
    w.Past i ∨ (child.executor = e →
      ∀ x, w.executors[e]? = some x → stopsAtShutdown x.settings child.work.kind = false) := by
  by_contra hn
  obtain ⟨hpast, hn⟩ := not_or.mp hn
  push Not at hn
  obtain ⟨he, x, hx, hstops⟩ := hn
  refine hs ⟨he, ?_, ⟨x, hx, by simpa using hstops⟩, ?_⟩
  · refine Option.not_isSome_iff_eq_none.mp fun ho => hpast ⟨child, hc, .inl ho⟩
  · by_contra hidle
    obtain ⟨hk, hway⟩ := not_or.mp hidle
    exact hpast (past_of_underWay hc hk (by simpa using hway))

theorem sparing_children (hr : Reached f w) (ha : w.Apart e p) (hc : w.children[i]? = some child)
    (hs : ¬ w.StoppedChild e i) : (w.sparing e p).Children p.acting i i child child where
  executor := rfl
  cell := ⟨rfl, (hr.stoppedChild_iff hc).not.mp hs⟩
  name := rfl
  work := rfl
  stage := .refl fun c joined rest hst =>
    ⟨rfl, ((ha.others i child hc fun h => hs ⟨child, hc, h⟩).2 _ rest hst).2 c joined rfl⟩
  rest on rest hst :=
    ((ha.others i child hc fun h => hs ⟨child, hc, h⟩).2 on rest hst).1.imp_left fun h => ⟨h, rfl⟩
  runs := rfl
  since := by
    show runsOf w i ≤ child.runs
    rw [runsOf, hc]
    exact Nat.le_refl _
  goesOn := by
    have hns : ¬ w.Stops e child := fun h => hs ⟨child, hc, h⟩
    have hruns : runsOf w i = child.runs := by rw [runsOf, hc]; rfl
    by_cases hpast : w.Past i
    · exact .inl ⟨rfl, hpast⟩
    · refine .inr ⟨?_, fun _ => (kept_of_not_stops hc hns).resolve_left hpast⟩
      show (w.sparing e p).Ahead (runsOf w i) child.work
      exact hruns ▸ (ha.others i child hc hns).1.resolve_left hpast

theorem sparing_veiled (ha : w.Apart e p) (hc : w.children[i]? = some child)
    (hs : w.StoppedChild e i) (veil : Veil)
    (hv : w.StoppedCell e child.cell → veil.cell child.cell) :
    child.Veiled (w.sparing e p) veil (p.caller? = some i) := by
  obtain ⟨x, hx, hstops⟩ := hs
  obtain rfl := Option.some.inj (hc.symm.trans hx)
  obtain ⟨hwork, hstage⟩ := ha.stopped i _ hc hstops
  exact ⟨hstops.executor, hv ⟨i, _, hc, hstops, rfl⟩, hstops.alone, hwork, hstage⟩

theorem sparing_mirrors : (w.sparing e p).Mirrors w where
  cells c _ := (em (w.StoppedCell e c)).symm.imp (⟨rfl, ·⟩) fun h =>
    ⟨sparing_left_cell.mpr h, sparing_right_cell.mpr h⟩
  children i _ := (em (w.StoppedChild e i)).symm.imp (⟨rfl, ·⟩) fun h =>
    ⟨sparing_left_child.mpr h, sparing_right_child.mpr h⟩

theorem sparing_waiters (hr : Reached f w) (ha : w.Apart e p) {j : Nat} {x : Waiter V}
    (hx : w.waiters[j]? = some x) : (w.sparing e p).Waiters x x := by
  obtain ⟨hbegin, hname⟩ := ha.waiters x (List.mem_of_getElem? hx)
  exact sparing_mirrors.waiters hr hx hbegin hname

theorem sparing_batches (hr : Reached f w) {b : Nat} {x : Batch V} (hx : w.batches[b]? = some x) :
    (w.sparing e p).Batches x x := by
  refine .refl fun c hc => ⟨rfl, ?_⟩
  rw [(hr.batched.tallied b x hx).cells] at hc
  obtain ⟨child, hm, hb, rfl⟩ := mem_members.mp hc
  obtain ⟨i, hi⟩ := List.mem_iff_getElem?.mp hm
  rw [← hr.stoppedChild_iff hi]
  rintro ⟨y, hy, hs⟩
  obtain rfl := Option.some.inj (hi.symm.trans hy)
  rw [hs.alone] at hb
  cases hb

theorem sparing_executors (hr : Reached f w) {k : Nat} {x : Executor}
    (hx : w.executors[k]? = some x) : (w.sparing e p).Executors k k x x where
  same := rfl
  settings := rfl
  origin := rfl
  registry := sparing_mirrors.registry hr hx
  keeps hk kind h := h x (by obtain rfl : k = e := hk; exact hx)
  running _ _ := Iff.rfl
  exact _ := ⟨rfl, rfl, rfl, rfl⟩

/-- The run beside itself. Some entries that come next in the log of one of them may be left out of
account. -/
theorem sparing_paired (hr : Reached f w) (ha : w.Apart e p) (he : e < w.executors.length)
    {l : List (Entry V)} (hl : l.length = p.noted) :
    Paired (w.sparing e p) p.acting w { w with log := w.log ++ l } where
  clock := rfl
  cells := {
    sharp := ⟨fun h h' => h.1.trans h'.1.symm, fun h h' => h.1.symm.trans h'.1⟩
    rel := by
      rintro a _ ⟨rfl, -⟩
      exact Option.Rel.of_some fun _ _ => rfl
    fresh := fun n => ⟨rfl, fun ⟨i, child, hc, _, hcell⟩ => by
      have := hr.owned.cell_lt hc
      omega⟩ }
  children := {
    sharp := ⟨fun h h' => h.1.trans h'.1.symm, fun h h' => h.1.symm.trans h'.1⟩
    rel := by
      rintro i _ ⟨rfl, hs⟩
      exact Option.Rel.of_some fun _ hc => sparing_children hr ha hc hs
    fresh := fun n => ⟨rfl, fun ⟨child, hc, _⟩ => by
      have := (List.getElem?_eq_some_iff.mp hc).1
      omega⟩ }
  waiters := .refl fun _ _ => sparing_waiters hr ha
  batches := .refl fun _ _ => sparing_batches hr
  executors := .refl fun _ _ => sparing_executors hr
  ready := .refl fun _ hm =>
    sparing_mirrors.refs hr (fun _ _ => sparing_waiters hr ha) (List.mem_append_left _ hm)
  waiting := .refl fun _ hm =>
    sparing_mirrors.refs hr (fun _ _ => sparing_waiters hr ha) (List.mem_append_right _ hm)
  executorNames := rfl
  unnamed _ _ hn := hn
  here := he
  futureNames n hn := Option.Rel.of_some fun h hx => ⟨⟨rfl, fun hs => hn ⟨h, hx, hs⟩⟩, rfl⟩
  ownLeft n h := by
    rintro ⟨h', hx, hs⟩ hn
    obtain rfl := Option.some.inj (hx.symm.trans hn)
    exact sparing_left_cell.mpr hs
  ownRight n h := by
    rintro ⟨h', hx, hs⟩ hn
    obtain rfl := Option.some.inj (hx.symm.trans hn)
    exact sparing_right_cell.mpr hs
  waiterNames := rfl
  threadNames n := Option.Rel.of_some fun c hx => ⟨rfl, ha.threads n c hx⟩
  seenLeft := Nat.le_refl _
  seenRight := by simp [World.sparing, hl]
  log := by
    have hright : (w.log ++ l).drop (w.log.length + p.noted) = [] :=
      List.drop_eq_nil_iff.mpr (by simp [hl])
    show Weave _ _ _ (w.log.drop w.log.length) ((w.log ++ l).drop (w.log.length + p.noted))
    rw [hright, List.drop_length]
    exact .nil
  anew n := by
    show runsOf w (w.children.length + n) = 0
    rw [runsOf, List.getElem?_eq_none (Nat.le_add_right _ n)]
    rfl
  history := .refl fun _ hm => (sparing_mirrors.happenings hr hm).imp_left (⟨rfl, ·⟩)
  veiledLeft i child hc hv := by
    have h := sparing_veiled ha hc (sparing_left_child.mp hv) (w.sparing e p).left
      sparing_left_cell.mpr
    exact { h with stage := fun on rest hs => (h.stage on rest hs).imp_left fun ho => ⟨i, ho, rfl⟩ }
  veiledRight i child hc hv := by
    have h := sparing_veiled ha hc (sparing_right_child.mp hv) (w.sparing e p).right
      sparing_right_cell.mpr
    exact { h with stage := fun on rest hs => (h.stage on rest hs).imp_left fun ho => ⟨i, ho, rfl⟩ }

end Before

/-! ## The call -/

namespace Paired

variable {σ : Pairing} {κ : Nat → Nat → Prop} {w v : World V} {x : Executor}

theorem shuttingDown_left (h : Paired σ κ w v) (hs : σ.sealed) :
    Paired σ κ (w.shuttingDown σ.executor) v := by
  have h₁ := (h.report_left (.shutdownCalled (w.nameOf σ.executor))).record_left
    (x := .asked σ.executor) rfl
  have h₂ := h₁.modifyExecutor_left (e := σ.executor) (f := fun x => { x with state := .draining })
    fun x y _ hxy => { hxy with
      running := fun _ hn => absurd hs hn
      exact := fun he => absurd rfl he }
  exact (h₂.record_left (x := .draining σ.executor) rfl).report_left _

/-- On one side some children are seen to, of which those that are not veiled need not be stopped
or cannot be cancelled. -/
theorem applyPolicies_left (h : Paired σ κ w v) (s : Settings) {is : List Nat}
    (hreg : ∀ i ∈ is, σ.left.child i ∨ ∀ child, w.children[i]? = some child →
      stopsAtShutdown s child.work.kind = true → w.cancellable child.cell false = false) :
    Paired σ κ (w.applyPolicies s is) v := by
  induction is generalizing w with
  | nil => exact h
  | cons i is ih =>
    rw [applyPolicies_cons]
    refine ih ?_ fun k hk => (hreg k (List.mem_cons_of_mem _ hk)).imp_right fun hn child hc hs => ?_
    · rcases hreg i List.mem_cons_self with hv | hn
      · exact h.seeTo_left s hv
      · have hsame : w.seeTo s i = w := by
          unfold World.seeTo
          cases hc : w.children[i]? with
          | none => rfl
          | some child =>
            dsimp only
            split
            · rename_i hs
              rw [cancel_refused (hn child hc hs)]
              rfl
            · rfl
        rw [hsame]
        exact h
    · rw [(w.seeTo_frame s i).1] at hc
      exact seeTo_refuses (hn child hc hs)

/-- The executor of the veiled tasks is shut down on one side. -/
theorem shutdown_left (h : Paired σ κ w v) (hs : σ.sealed)
    (hx : w.executors[σ.executor]? = some x) (hrun : w.isRunning σ.executor = true)
    (hreg : ∀ i ∈ x.registry, σ.left.child i ∨ ∀ child, w.children[i]? = some child →
      stopsAtShutdown x.settings child.work.kind = true →
        w.cancellable child.cell false = false) :
    Paired σ κ (w.shutdown σ.executor) v := by
  rw [shutdown_of_running hx hrun]
  exact ((h.shuttingDown_left hs).applyPolicies_left x.settings hreg).beginDrain_left
    fun hn => absurd hs hn

end Paired

section Call

variable {w : World V} {e : Nat} {p : Place V} {x : Executor} {name : String}

/-- The two runs when the call has been made in one of them. -/
theorem sparing_shutdown (hr : Reached (.caller p.caller?) w) (ha : w.Apart e p)
    (hx : w.executors[e]? = some x) (hrun : w.isRunning e = true) {l : List (Entry V)}
    (hl : l.length = p.noted) :
    Paired (w.sparing e p) p.acting w ((w.shutdown e).withLog (w.log ++ l)) := by
  have he := (List.getElem?_eq_some_iff.mp hx).1
  have h := (sparing_paired hr ha he hl).flip
  rw [← shutdown_withLog hrun]
  refine (h.shutdown_left trivial hx hrun fun i hi => ?_).flip
  by_cases hs : w.StoppedChild e i
  · exact .inl (sparing_right_child.mpr hs)
  · -- A child that could be cancelled would be stopped.
    refine .inr fun child hc hstops => Bool.eq_false_iff.mpr fun hg => hs ⟨child, hc, ?_⟩
    obtain ⟨y, hy, hexecutor, -⟩ := ((hr.audited e x hx).registry i).mp hi
    obtain rfl := Option.some.inj (hy.symm.trans hc)
    exact ⟨hexecutor, (cancel_granted_iff.mp ((cancel_snd ..).trans hg)).1, ⟨x, hx, hstops⟩,
      .inr (hr.underWay_of_cancellable hc hg)⟩

theorem shutdown_log (hrun : w.isRunning e = true) : (w.shutdown e).log = w.log := by
  have h := shutdown_withLog hrun w.log
  rw [show w.withLog w.log = w from rfl] at h
  rw [h]
  rfl

theorem perform_shutdown (hn : w.executorNames.get? name = some e) :
    (w.perform (.shutdown name)).1 = w.shutdown e := by
  simp [perform, onExecutor, executor, hn]

/-- The two runs when the turn in which the call was made is over. -/
theorem sparing_onward (hr : Reached (.caller p.caller?) w) (ha : w.Apart e p)
    (hx : w.executors[e]? = some x) (hrun : w.isRunning e = true)
    (hn : w.executorNames.get? name = some e)
    (hrest : p.caller? ≠ none →
      (w.onward [] p).ready = [] ∧ (w.onward [.shutdown name] p).ready = []) :
    Abreast (w.sparing e p) (w.onward [] p) (w.onward [.shutdown name] p) := by
  have hshut := (shutdown_leads (List.getElem?_eq_some_iff.mp hx).1).reached hr
  cases p with
  | outside =>
    have h := sparing_shutdown hr ha hx hrun (l := []) rfl
    have hv : (w.shutdown e).withLog (w.log ++ []) = w.onward [.shutdown name] .outside := by
      rw [List.append_nil, ← shutdown_log hrun]
      exact (perform_shutdown hn).symm
    have hκ : (Place.outside (V := V)).acting = nobody := by
      funext i j
      exact propext ⟨fun h => absurd h.1 (by simp [Place.caller?]), False.elim⟩
    rw [hv, hκ] at h
    refine ⟨h, hr, ?_, fun i j hij => ?_⟩
    · rw [← hv, List.append_nil, ← shutdown_log hrun]
      exact hshut
    · obtain ⟨rfl, hpast⟩ := hij
      refine ⟨hpast, ?_⟩
      rw [← hv, List.append_nil, ← shutdown_log hrun]
      exact (shutdown_leads (List.getElem?_eq_some_iff.mp hx).1 hr).ops.later.past hpast
  | body i steps rounds turns =>
    obtain ⟨child, hc, -⟩ := hr.tended.acting rfl
    have hc' : (w.perform (.shutdown name)).1.children[i]? = some child := by
      rw [perform_shutdown hn, shutdown_children hrun, hc]
    let entry : Entry V :=
      ⟨w.now, child.name, .answered (w.perform (.shutdown name)).2⟩
    let v := (w.perform (.shutdown name)).1.note child.name
      (.answered (w.perform (.shutdown name)).2)
    have hv : v = (w.shutdown e).withLog (w.log ++ [entry]) := by
      have hnow : (w.shutdown e).now = w.now := congrArg (·.elapsed.nanos)
        (shutdown_leads (List.getElem?_eq_some_iff.mp hx).1 hr).clock
      simp only [v, note, perform_shutdown hn, shutdown_log hrun, hnow]
      rfl
    have h := sparing_shutdown hr ha hx hrun (l := [entry]) rfl
    rw [← hv] at h
    have hlater : Leads (.caller (some i)) w (.caller (some i)) v :=
      (perform_leads _).trans (note_leads _ _)
    have hκ : ∀ a b, (Place.body i steps rounds turns).acting a b → a = i ∧ b = i := by
      rintro a _ ⟨ho, rfl⟩
      obtain rfl := Option.some.inj ho
      exact ⟨rfl, rfl⟩
    let σ := w.sparing e (.body i steps rounds turns)
    have hpast : ∀ a b, σ.past a b → w.Past a ∧ v.Past b := by
      rintro a _ ⟨rfl, hpast⟩
      exact ⟨hpast, (hlater hr).ops.later.past hpast⟩
    have hsteps : σ.child i i ∧ σ.Polite (Step.mentionsOf steps) ∨
        σ.left.child i ∧ σ.right.child i ∧ ∀ x ∈ steps, x.Tame σ := by
      rcases ha.acting i steps rounds turns rfl with ⟨hs, ht⟩ | ⟨hs, hp⟩
      · exact .inr ⟨sparing_left_child.mpr hs, sparing_right_child.mpr hs, ht⟩
      · exact .inl ⟨⟨rfl, hs⟩, hp⟩
    have habreast := Abreast.goOn h hκ hr (hlater.reached hr) hpast hsteps rounds
    rw [← goOn_act (.shutdown name) steps rounds hc hc'] at habreast
    obtain ⟨hleft, hright⟩ := hrest (by simp [Place.caller?])
    exact habreast.turns hleft hright

theorem onward_way (hr : Reached (.caller p.caller?) w) (calls : List (Call V)) :
    Way (.caller p.caller?) w (.caller none) (w.onward calls p) := by
  cases p with
  | outside => exact after_way _ hr
  | body i steps rounds turns =>
    exact (((goOn_leads _ rounds).trans (turns_leads turns)) hr).toWay

/-- Whether two runs agree on all that a shutdown of an executor in some state does not stop: on
every outcome, on when each task was called, went on, ended or was cancelled, and on everything that
was noted since under a name that no stopped task bears, nor a waiter for one or for the termination
of the executor. -/
structure Unaffected (w : World V) (e : Nat) (p : Place V) (u v : World V) : Prop where
  outcomes : ∀ c, ¬ w.StoppedCell e c → u.outcomeOf c = v.outcomeOf c
  happenings : ∀ c, ¬ w.StoppedCell e c →
    u.history.filter (·.2.cell? == some c) = v.history.filter (·.2.cell? == some c)
  logs : ∀ name, (∀ child ∈ w.children, w.Stops e child → child.name ≠ name) →
    (∀ x ∈ u.waiters, (w.sparing e p).left.request x.request → x.name ≠ name) →
    (u.log.drop w.log.length).filter (·.who == name) =
      (v.log.drop (w.log.length + p.noted)).filter (·.who == name)

variable {u v : World V}

theorem unaffected_of_abreast (h : Abreast (w.sparing e p) u v) (hu : Later w u) (hv : Later w v) :
    w.Unaffected e p u v := by
  have hcell {a b : Nat} (hab : (w.sparing e p).cell a b) : a = b := hab.1
  have named {i : Nat} {child : Child V} {z : World V} (hz : Later w z)
      (hs : w.StoppedChild e i) (hc : z.children[i]? = some child) :
      ∃ x ∈ w.children, w.Stops e x ∧ x.name = child.name := by
    obtain ⟨x, hx, hstops⟩ := hs
    obtain ⟨y, hy, hk⟩ := hz.children i x hx
    obtain rfl := Option.some.inj (hc.symm.trans hy)
    exact ⟨x, List.mem_of_getElem? hx, hstops, hk.name.symm⟩
  refine ⟨fun c hc => h.paired.outcomeOf_eq ⟨rfl, hc⟩, fun c hc => ?_, fun name hn hw => ?_⟩
  · have hidden {veil : Veil} (hveil : veil.cell c → w.StoppedCell e c) (q : Instant × Happening V)
        (hq : veil.happening q.2) : (q.2.cell? == some c) = false := by
      obtain ⟨t, k⟩ := q
      refine beq_eq_false_iff_ne.mpr fun heq => hc (hveil ?_)
      cases k <;> simp only [Happening.cell?, Option.some.injEq, reduceCtorEq] at heq <;>
        exact heq ▸ hq
    refine h.paired.history.filter_eq (hidden sparing_left_cell.mp)
      (hidden sparing_right_cell.mp) ?_
    rintro ⟨t, a⟩ ⟨_, b⟩ ⟨rfl, hab⟩
    cases hab with
    | called hab => rw [hcell hab]
    | polled hab => rw [hcell hab]
    | ended hab r => rw [hcell hab]
    | cancelled hab => rw [hcell hab]
    | _ => rfl
  · refine h.paired.log.filter_eq (fun a ha => ?_) (fun a ha => ?_) ?_
    · refine beq_eq_false_iff_ne.mpr ?_
      rcases ha with ⟨i, child, hv', hc, hname⟩ | ⟨j, x, hx, hq, hname⟩
      · obtain ⟨y, hy, hs, hyn⟩ := named hu (sparing_left_child.mp hv') hc
        exact fun heq => hn y hy hs (hyn.trans (hname.trans heq))
      · exact fun heq => hw x (List.mem_of_getElem? hx) hq (hname.trans heq)
    · refine beq_eq_false_iff_ne.mpr ?_
      rcases ha with ⟨j, child, hv', hc, hname⟩ | ⟨j, y, hy, hq, hname⟩
      · obtain ⟨z, hz, hs, hzn⟩ := named hv (sparing_right_child.mp hv') hc
        exact fun heq => hn z hz hs (hzn.trans (hname.trans heq))
      · -- A waiter that is veiled on one side is so on the other.
        obtain ⟨x, hx, hxy⟩ := (h.paired.waiters.flip (fun _ _ => eq_comm)
          fun _ _ _ _ hxy => hxy.flip).get rfl hy
        have hq' : (w.sparing e p).left.request x.request := by
          rcases hxy.request with ⟨hreq, -⟩ | ⟨-, hq'⟩
          · exact absurd hq hreq.not_left
          · exact hq'
        exact fun heq => hw x (List.mem_of_getElem? hx) hq' ((hxy.name.symm.trans hname).trans heq)
    · rintro ⟨t, who, a⟩ ⟨t', who', b⟩ ⟨ht, hwho, hab⟩
      obtain rfl : t = t' := ht
      obtain rfl : who = who' := hwho
      cases hab with
      | same => rfl
      | answered hab =>
        rcases hab with rfl | ⟨hn, -⟩
        · rfl
        · exact absurd trivial hn

end Call

end World

/-- A shutdown of a running executor changes exactly the outcomes of the delayed and of the periodic
tasks that are unsettled, not in a run, and stopped by the settings, and cancels these before the
call returns. Set beside the same run without the call, everything else stays the same from then on:
outcomes, runs and logs. That is so for a call from outside and for one that a body makes, if the
stopped tasks are apart from all that is left to do, what is done later from outside keeps to the
same rule, and both runs come to rest wherever the clock stands. -/
theorem Reached.shutdown_spares {w : World V} {e : Nat} {p : Place V} {x : Executor}
    (hr : Reached (.caller p.caller?) w) (hx : w.executors[e]? = some x)
    (hrun : w.isRunning e = true) :
    (∀ c, ((w.shutdown e).outcomeOf c ≠ w.outcomeOf c ↔
        ∃ (i : Nat) (child : Child V), w.children[i]? = some child ∧ child.executor = e ∧
          child.cell = c ∧ w.outcomeOf c = none ∧ w.underWay c = false ∧
          (child.work.kind = .delayed ∧ x.settings.keepDelayed = false ∨
            child.work.kind = .periodic ∧ x.settings.keepPeriodic = false)) ∧
      ((w.shutdown e).outcomeOf c ≠ w.outcomeOf c →
        (w.shutdown e).outcomeOf c = some .cancelled)) ∧
    ∀ (name : String) (later : List (ScenarioStep V)), w.executorNames.get? name = some e →
      w.Apart e p → (∀ s ∈ later, s.Fair (w.sparing e p)) →
      (p.caller? ≠ none →
        (w.onward [] p).ready = [] ∧ (w.onward [.shutdown name] p).ready = []) →
      (w.onward [] p).Calm later → (w.onward [.shutdown name] p).Calm later →
      w.Unaffected e p ((w.onward [] p).after later)
        ((w.onward [.shutdown name] p).after later) := by
  refine ⟨hr.cancelled_by_shutdown hx hrun, fun name later hn ha hfair hrest hu hv => ?_⟩
  have habreast := (sparing_onward hr ha hx hrun hn hrest).after hfair hu hv
  have later_of (calls : List (Call V)) : Later w ((w.onward calls p).after later) :=
    ((onward_way hr calls).trans (after_way later ((onward_way hr calls).reached hr))).ops.later
  exact unaffected_of_abreast habreast (later_of []) (later_of _)

/-- An executor that stops its delayed tasks at a shutdown has one, and a task that sleeps. -/
def napping : World Nat :=
  (World.start true).after
    [.call (.create "pool" none none none (some false)),
      .call (.schedule "pool" "late" ⟨30, by decide⟩ (.steps [.ok (some 1)])),
      .call (.submit "pool" "nap" none (.steps [.sleep ⟨15, by decide⟩, .ok (some 2)])),
      .settle]

theorem napping_children : napping.children =
    [{ executor := 0, id := 1, cell := 0, name := "late"
       work := .delayed 30 (.steps [.ok (some 1)]), stage := .scheduled 30 },
     { executor := 0, id := 2, cell := 1, name := "nap"
       work := .once .own (.steps [.sleep ⟨15, by decide⟩, .ok (some 2)])
       stage := .suspended (.time 15) [.ok (some 2)] }] := rfl

theorem napping_apart : napping.Apart 0 .outside where
  stopped i child hc hs := by
    rw [napping_children] at hc
    match i with
    | 0 => cases hc; exact ⟨by simp [Work.Tame, Body.Tame, Step.Tame], by simp⟩
    | 1 => cases hc; obtain ⟨x, -, hs⟩ := hs.stops; cases hs
    | n + 2 => simp at hc
  others i child hc hs := by
    rw [napping_children] at hc
    match i with
    | 0 => cases hc; exact absurd ⟨rfl, rfl, ⟨_, rfl, rfl⟩, .inr rfl⟩ hs
    | 1 =>
      cases hc
      refine ⟨.inr ?_, ?_⟩
      · simp [Pairing.Ahead, Pairing.Polite, Work.mentions, Body.mentions, Step.mentionsOf,
          Step.mentions]
      · rintro on rest ⟨⟩
        exact ⟨.inr (by simp [Pairing.Polite, Step.mentionsOf, Step.mentions]), by simp⟩
    | n + 2 => simp at hc
  waiters x hx := by cases hx
  threads n c hn := by cases hn
  acting i steps rounds turns hp := by cases hp

theorem shutdown_spares_napping :
    (napping.shutdown 0).outcomeOf 0 = some .cancelled ∧
    napping.Unaffected 0 .outside ((napping.onward [] .outside).after [.advance ⟨45, by decide⟩])
      ((napping.onward [.shutdown "pool"] .outside).after [.advance ⟨45, by decide⟩]) := by
  have hr : Reached (.caller (Place.outside (V := Nat)).caller?) napping :=
    (after_way _ (.start true)).reached (.start true)
  obtain ⟨hstops, hspares⟩ := Reached.shutdown_spares hr (e := 0) rfl rfl
  refine ⟨(hstops 0).2 ((hstops 0).1.mpr ?_), hspares "pool" _ rfl napping_apart ?_ ?_ ?_ ?_⟩
  · exact ⟨0, _, rfl, rfl, rfl, rfl, rfl, .inl ⟨rfl, rfl⟩⟩
  · simp [ScenarioStep.Fair]
  · exact fun h => absurd rfl h
  · exact ⟨⟨rfl, by rintro target ⟨⟩; rfl⟩, trivial⟩
  · exact ⟨⟨rfl, by rintro target ⟨⟩; rfl⟩, trivial⟩

/-- The same executor, with a task that looks at the delayed one. -/
def watching : World Nat :=
  (World.start true).after
    [.call (.create "pool" none none none (some false)),
      .call (.schedule "pool" "late" ⟨30, by decide⟩ (.steps [.ok (some 1)])),
      .call (.submit "pool" "watch" none
        (.steps [.sleep ⟨15, by decide⟩, .act (.inspect "late"), .ok (some 2)])),
      .settle]

/-- The delayed task would hand in another one, which cancels a task of another executor. -/
def meddling : World Nat :=
  (World.start true).after
    [.call (.create "pool" none none none (some false)),
      .call (.create "other" none none none none),
      .call (.schedule "pool" "late" ⟨30, by decide⟩
        (.steps [.act (.submit "other" "extra" none (.steps [.act (.cancel "long" true)]))])),
      .call (.submit "other" "long" none (.steps [.sleep ⟨60, by decide⟩, .ok (some 2)])),
      .settle]

/-- What the looks at futures showed of them, whether each was done. -/
def looks (l : List (Entry Nat)) : List Bool :=
  l.filterMap fun x => match x.event with
    | .answered (.future view) => some view.done
    | _ => none

/-- A task that only looks at a stopped one has another log than without the shutdown; and so has
one that a task acts on which a stopped one would have handed in. -/
theorem spared_not_when_seen :
    (watching.isRunning 0 = true ∧
      watching.children.map (fun x => (x.name, x.work.kind)) =
        [("late", .delayed), ("watch", .immediate)] ∧
      (watching.shutdown 0).outcomeOf 0 = some .cancelled ∧
      looks (watching.after [.advance ⟨15, by decide⟩]).log = [false] ∧
      looks ((watching.shutdown 0).after [.advance ⟨15, by decide⟩]).log = [true]) ∧
    meddling.isRunning 0 = true ∧
      meddling.children.map (fun x => (x.name, x.executor)) = [("late", 0), ("long", 1)] ∧
      (meddling.shutdown 0).outcomeOf 1 = none ∧
      (meddling.after [.advance ⟨30, by decide⟩, .advance ⟨35, by decide⟩]).outcomeOf 1 =
        some .cancelled ∧
      ((meddling.shutdown 0).after
        [.advance ⟨30, by decide⟩, .advance ⟨35, by decide⟩]).outcomeOf 1 =
        some (.completed (some 2)) :=
  ⟨⟨rfl, rfl, rfl, rfl, rfl⟩, rfl, rfl, rfl, rfl, rfl⟩

end TimedTasks
