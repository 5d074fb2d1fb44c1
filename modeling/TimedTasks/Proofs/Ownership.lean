import TimedTasks.Proofs.Growth
/-!
Whose is what. Every child has a cell of its own and an executor; a cell without a child was
cancelled when it was made; and whatever names, requests and waits refer to is there.
-/

namespace TimedTasks

theorem Keeps.back {α : Type} {R : α → α → Prop} {l l' : List α} (h : Keeps R l l')
    (hl : l'.length = l.length) {i : Nat} {a' : α} (ha : l'[i]? = some a') :
    ∃ a, l[i]? = some a ∧ R a a' := by
  obtain ⟨a, hi⟩ : ∃ a, l[i]? = some a := by
    have hlt := (List.getElem?_eq_some_iff.mp ha).1
    exact ⟨l[i], List.getElem?_eq_getElem (hl ▸ hlt)⟩
  obtain ⟨b, hb, hr⟩ := h i a hi
  obtain rfl : b = a' := by simpa [hb] using ha
  exact ⟨a, hi, hr⟩

theorem Keeps.length_le {α : Type} {R : α → α → Prop} {l l' : List α} (h : Keeps R l l') :
    l.length ≤ l'.length := by
  apply Nat.le_of_not_lt
  intro hlt
  obtain ⟨a', ha, -⟩ := h l'.length l[l'.length] (List.getElem?_eq_getElem (by omega))
  have := (List.getElem?_eq_some_iff.mp ha).1
  omega

theorem getElem?_concat_iff {α : Type} {l : List α} {a b : α} {i : Nat} :
    (l ++ [a])[i]? = some b ↔ l[i]? = some b ∨ i = l.length ∧ a = b := by
  rw [List.getElem?_append]
  split
  · rename_i hi
    exact ⟨.inl, fun h => h.resolve_right fun hr => absurd hr.1 (Nat.ne_of_lt hi)⟩
  · rename_i hi
    have hn : l[i]? = none := List.getElem?_eq_none (Nat.le_of_not_lt hi)
    rw [hn]
    by_cases he : i = l.length
    · subst he
      simp
    · have : i - l.length ≠ 0 := by omega
      simp [he, this]

theorem exists_getElem?_of_modify {α : Type} {l : List α} {i j : Nat} {f : α → α} {b : α}
    (h : (l.modify i f)[j]? = some b) :
    ∃ a, l[j]? = some a ∧ (i = j ∧ b = f a ∨ i ≠ j ∧ b = a) := by
  rw [List.getElem?_modify] at h
  obtain ⟨a, ha, rfl⟩ := Option.map_eq_some_iff.mp h
  refine ⟨a, ha, ?_⟩
  by_cases hij : i = j
  · exact .inl ⟨hij, by simp [hij]⟩
  · exact .inr ⟨hij, by simp [hij]⟩

namespace Names

variable {α : Type}

theorem mem_put {l : Names α} {name : String} {a : α} {p : String × α} (h : p ∈ l.put name a) :
    p ∈ l ∨ p = (name, a) := by
  simp only [put, erase, List.mem_append, List.mem_filter, List.mem_singleton] at h
  exact h.imp And.left id

theorem mem_of_get? {l : Names α} {name : String} {a : α} (h : l.get? name = some a) :
    (name, a) ∈ l := by
  rw [get?] at h
  obtain ⟨l₁, l₂, rfl, -⟩ := List.lookup_eq_some_iff.mp h
  exact List.mem_append_right _ List.mem_cons_self

end Names

namespace World

variable {V : Type} {w w' : World V}

structure Owned (w : World V) : Prop where
  cell_lt : ∀ {i : Nat} {child : Child V}, w.children[i]? = some child →
    child.cell < w.cells.length
  executor_lt : ∀ {i : Nat} {child : Child V}, w.children[i]? = some child →
    child.executor < w.executors.length
  apart : ∀ {i j : Nat} {child other : Child V}, w.children[i]? = some child →
    w.children[j]? = some other → child.cell = other.cell → i = j
  unowned : ∀ c < w.cells.length,
    (∃ (i : Nat) (child : Child V), w.children[i]? = some child ∧ child.cell = c) ∨
      w.outcomeOf c = some .cancelled
  named : ∀ p ∈ w.executorNames, p.2 < w.executors.length

namespace Later

theorem outcomeOf (h : Later w w') {c : Nat} {o : Outcome V} (ho : w.outcomeOf c = some o) :
    w'.outcomeOf c = some o := by
  obtain ⟨cell, hc, ho⟩ := Option.bind_eq_some_iff.mp ho
  obtain ⟨cell', hc', hl⟩ := h.cells c cell hc
  exact Option.bind_eq_some_iff.mpr ⟨cell', hc', hl.outcome o ho⟩

theorem isSettled (h : Later w w') {c : Nat} (hs : w.isSettled c = true) :
    w'.isSettled c = true := by
  obtain ⟨o, ho⟩ := Option.isSome_iff_exists.mp hs
  exact Option.isSome_iff_exists.mpr ⟨o, h.outcomeOf ho⟩

theorem isSignalled (h : Later w w') {c : Nat} (hs : w.isSignalled c = true) :
    w'.isSignalled c = true := by
  unfold World.isSignalled at hs ⊢
  cases hc : w.cells[c]? with
  | none => simp [hc] at hs
  | some cell =>
    obtain ⟨cell', hc', hl⟩ := h.cells c cell hc
    rw [hc']
    exact hl.token (by simpa [hc] using hs)

end Later

namespace Owned

/-- The child that a cell belongs to is known by it. -/
theorem eq_of_cell (h : Owned w) {i : Nat} {child other : Child V}
    (hc : w.children[i]? = some child) (ho : other ∈ w.children) (he : other.cell = child.cell) :
    other = child := by
  obtain ⟨k, hk⟩ := List.mem_iff_getElem?.mp ho
  obtain rfl := h.apart hk hc he
  exact Option.some.inj (hk.symm.trans hc)

/-- Where nothing comes in, nothing changes hands. -/
theorem of_later (h : Owned w) (hl : Later w w')
    (children : w'.children.length = w.children.length)
    (cells : w'.cells.length = w.cells.length) (names : w'.executorNames = w.executorNames) :
    Owned w' where
  cell_lt hc := by
    obtain ⟨child, hc, hr⟩ := hl.children.back children hc
    rw [cells, hr.cell]
    exact h.cell_lt hc
  executor_lt hc := by
    obtain ⟨child, hc, hr⟩ := hl.children.back children hc
    rw [hr.executor]
    exact Nat.lt_of_lt_of_le (h.executor_lt hc) hl.executors.length_le
  apart hi hj he := by
    obtain ⟨child, hi, hri⟩ := hl.children.back children hi
    obtain ⟨other, hj, hrj⟩ := hl.children.back children hj
    exact h.apart hi hj (hri.cell ▸ hrj.cell ▸ he)
  unowned c hc := by
    rcases h.unowned c (cells ▸ hc) with ⟨i, child, hi, he⟩ | ho
    · obtain ⟨child', hi', hr⟩ := hl.children i child hi
      exact .inl ⟨i, child', hi', hr.cell.trans he⟩
    · exact .inr (hl.outcomeOf ho)
  named p hp := Nat.lt_of_lt_of_le (h.named p (names ▸ hp)) hl.executors.length_le

theorem addChild (h : Owned w) {e : Nat} (he : e < w.executors.length) (name : String)
    (work : Work V) (mark : Option Mark) : Owned (w.addChild e name work mark).1 where
  cell_lt hc := by
    have hn : (w.addChild e name work mark).1.cells.length = w.cells.length + 1 :=
      List.length_append
    rcases getElem?_concat_iff.mp hc with hc | ⟨-, rfl⟩
    · exact hn ▸ Nat.lt_succ_of_lt (h.cell_lt hc)
    · exact hn ▸ Nat.lt_succ_self _
  executor_lt hc := by
    have hn : (w.addChild e name work mark).1.executors.length = w.executors.length :=
      List.length_modify ..
    rcases getElem?_concat_iff.mp hc with hc | ⟨-, rfl⟩
    · exact hn ▸ h.executor_lt hc
    · exact hn ▸ he
  apart hi hj hij := by
    rcases getElem?_concat_iff.mp hi with hi | ⟨rfl, rfl⟩ <;>
      rcases getElem?_concat_iff.mp hj with hj | ⟨rfl, rfl⟩
    · exact h.apart hi hj hij
    · exact absurd hij (Nat.ne_of_lt (h.cell_lt hi))
    · exact absurd hij.symm (Nat.ne_of_lt (h.cell_lt hj))
    · rfl
  unowned c hc := by
    have hl := addChild_later w e name work mark
    rcases Nat.lt_succ_iff_lt_or_eq.mp (show c < w.cells.length + 1 by
      simpa [World.addChild, addCell, modifyExecutor, enqueue] using hc) with hc | rfl
    · rcases h.unowned c hc with ⟨i, child, hi, he⟩ | ho
      · obtain ⟨child', hi', hr⟩ := hl.children i child hi
        exact .inl ⟨i, child', hi', hr.cell.trans he⟩
      · exact .inr (hl.outcomeOf ho)
    · exact .inl ⟨w.children.length, _, getElem?_concat_iff.mpr (.inr ⟨rfl, rfl⟩), rfl⟩
  named p hp := by
    have hn : (w.addChild e name work mark).1.executors.length = w.executors.length :=
      List.length_modify ..
    exact hn ▸ h.named p hp

theorem openBatch (h : Owned w) {e : Nat} (he : e < w.executors.length) (name : String)
    (work : Nat → Body V → Work V) (bodies : List (Body V)) :
    Owned (w.openBatch e name work bodies) := by
  obtain ⟨hb, -⟩ := addBatchChildren_induct (P := fun w => Owned w ∧ e < w.executors.length) ⟨h, he⟩
    e name (work w.batches.length) 0 bodies fun w' name' body h' =>
      ⟨h'.1.addChild h'.2 name' _ none,
        Nat.lt_of_lt_of_le h'.2 (addChild_later w' e name' _ none).executors.length_le⟩
  exact ⟨hb.cell_lt, hb.executor_lt, hb.apart, hb.unowned, hb.named⟩

/-- Cells that are cancelled from the start need no child. -/
theorem addCancelledCells (h : Owned w) (count : Nat) : Owned (w.addCancelledCells count).1 := by
  rw [addCancelledCells_cells]
  have hl : ∀ c, c < w.cells.length →
      c < (w.cells ++ List.replicate count ({ outcome := some .cancelled } : Cell V)).length := by
    intro c hc
    rw [List.length_append]
    omega
  refine ⟨fun hc => hl _ (h.cell_lt hc), h.executor_lt, h.apart, fun c hc => ?_, h.named⟩
  by_cases hlt : c < w.cells.length
  · apply (h.unowned c hlt).imp id
    intro ho
    simpa [World.outcomeOf, List.getElem?_append_left hlt] using ho
  · have hr : c - w.cells.length < count := by
      rw [List.length_append, List.length_replicate] at hc
      omega
    refine .inr ?_
    simp [World.outcomeOf, List.getElem?_append_right (Nat.le_of_not_lt hlt), hr]

end Owned

end World

open World

variable {V : Type} {w w' : World V}

theorem Op.owned {f f' : Focus} (ho : Op f w f' w') (h : Owned w) : Owned w' := by
  have hl := ho.later
  cases ho with
  | create name s =>
    refine { h with executor_lt := fun hc => ?_, named := fun p hp => ?_ }
    · exact Nat.lt_of_lt_of_le (h.executor_lt hc) hl.executors.length_le
    · have hn : (w.executors ++ [({ settings := s, origin := w.now } : Executor)]).length =
          w.executors.length + 1 := List.length_append
      rcases Names.mem_put hp with hp | rfl
      · exact Nat.lt_of_lt_of_le (h.named p hp) hl.executors.length_le
      · exact hn ▸ Nat.lt_succ_self _
  | enrol name mark hr hb =>
    obtain ⟨x, hx, -⟩ := isRunning_iff.mp hr
    exact h.addChild (List.getElem?_eq_some_iff.mp hx).1 ..
  | openBatch name hr hw hn =>
    obtain ⟨x, hx, -⟩ := isRunning_iff.mp hr
    exact h.openBatch (List.getElem?_eq_some_iff.mp hx).1 ..
  | grant count => exact h.addCancelledCells count
  | cancel hg =>
    exact h.of_later hl (by simp [cancel_frame]) (by simp [cancel_cells]) (by simp [cancel_frame])
  | @start _ i child hc he hm hs hr hd =>
    refine h.of_later hl ?_ ?_ (countRun_frame w i child).2.2.2.2.2.2.1
    · simp [record, beginRun, modifyCell, countRun_children]
    · simp [record, beginRun, modifyCell, countRun_cells]
  | drop hc he hs => exact h.of_later hl rfl (List.length_modify ..) rfl
  | pause rest hc he ho hp | sleep hc he hp hs hk =>
    obtain ⟨-, -, hcells, hchildren, -, -, hnames, -, -⟩ := parkChild_frame _ hc
    exact h.of_later hl (by rw [hchildren, List.length_modify]) (by rw [hcells]) hnames
  | again value hc hk | remark next hc hk => exact h.of_later hl rfl (List.length_modify ..) rfl
  | yield hc he hp hk => exact h.of_later hl (List.length_modify ..) rfl rfl
  | @finish _ i child r hc he hr hk =>
    have hf := finish_frame (w := w.modifyCell child.cell (·.leave r)) r hc
    have hcells := finish_cells (w := w.modifyCell child.cell (·.leave r)) r hc
    refine h.of_later hl ?_ ?_ hf.2.2.2.1
    · rw [hf.2.1]; exact List.length_modify ..
    · rw [hcells, List.length_modify]; exact List.length_modify ..
  | stop hc he hb =>
    refine h.of_later hl ?_ ?_ (finish_frame _ hc).2.2.2.1
    · rw [(finish_frame _ hc).2.1]; exact List.length_modify ..
    · rw [finish_cells _ hc]; exact List.length_modify ..
  | _ => exact h.of_later hl rfl rfl rfl

theorem Reached.owned {f : Focus} (h : Reached f w) : Owned w := by
  refine h.induct (P := fun _ w => Owned w) (fun jumps => ?_) fun _ ho hw => ho.owned hw
  exact ⟨fun hc => by simp [World.start] at hc, fun hc => by simp [World.start] at hc,
    fun hc => by simp [World.start] at hc, fun c hc => by simp [World.start] at hc,
    fun p hp => by simp [World.start] at hp⟩

/-! ## References -/

theorem Wait.Within.mono {m n : Nat} (hmn : m ≤ n) {on : Wait} (h : on.Within m) :
    on.Within n := by
  cases on with
  | cell c joined => exact Nat.lt_of_lt_of_le h hmn
  | _ => trivial

theorem Request.Within.mono {m n : Nat} (hmn : m ≤ n) {q : Request V} (h : q.Within m) :
    q.Within n := by
  cases q with
  | get c bound => exact Nat.lt_of_lt_of_le h hmn
  | _ => trivial

/-- What a waiter waits for is what it was asked for, and is there. -/
structure Waiter.Seated (n : Nat) (x : Waiter V) : Prop where
  suits : ∀ {on deadline}, x.stage = .waiting on deadline → x.request.Suits on
  batch_lt : ∀ {b deadline}, x.stage = .waiting (.batch b) deadline → b < n

theorem Waiter.Seated.of_idle {n : Nat} {x : Waiter V}
    (h : ∀ on deadline, x.stage ≠ .waiting on deadline) : x.Seated n :=
  ⟨fun hs => absurd hs (h _ _), fun hs => absurd hs (h _ _)⟩

namespace World

structure Sound (w : World V) : Prop where
  futures : ∀ p ∈ w.futureNames, p.2.cell < w.cells.length
  requests : ∀ {j : Nat} {x : Waiter V}, w.waiters[j]? = some x →
    x.request.Within w.cells.length
  seated : ∀ {j : Nat} {x : Waiter V}, w.waiters[j]? = some x → x.Seated w.batches.length
  waits : ∀ {i : Nat} {child : Child V} {on : Wait} {rest : List (Step V)},
    w.children[i]? = some child → child.stage = .suspended on rest → on.Within w.cells.length

/-- No child waits for anything new. -/
def Unmoved (w w' : World V) : Prop :=
  ∀ (i : Nat) (child' : Child V) (on : Wait) (rest : List (Step V)),
    w'.children[i]? = some child' → child'.stage = .suspended on rest →
      ∃ child, w.children[i]? = some child ∧ child.stage = .suspended on rest

theorem Unmoved.of_eq (h : w'.children = w.children) : Unmoved w w' :=
  fun _ child' _ _ hc hs => ⟨child', h ▸ hc, hs⟩

theorem Unmoved.modify {i : Nat} {g : Child V → Child V}
    (h : w'.children = w.children.modify i g)
    (hg : ∀ x on rest, (g x).stage = .suspended on rest → x.stage = .suspended on rest) :
    Unmoved w w' := by
  intro k child' on rest hc hs
  rw [h] at hc
  obtain ⟨child, hk, ⟨-, rfl⟩ | ⟨-, rfl⟩⟩ := exists_getElem?_of_modify hc
  · exact ⟨child, hk, hg _ _ _ hs⟩
  · exact ⟨_, hk, hs⟩

theorem Unmoved.append {l : List (Child V)} (h : w'.children = w.children ++ l)
    (hl : ∀ x ∈ l, x.stage = .created) : Unmoved w w' := by
  intro k child' on rest hc hs
  rw [h, List.getElem?_append] at hc
  split at hc
  · exact ⟨child', hc, hs⟩
  · rw [hl _ (List.mem_of_getElem? hc)] at hs
    cases hs

namespace Sound

theorem grow (h : Sound w) (hl : Later w w') (futures : w'.futureNames = w.futureNames)
    (waiters : w'.waiters = w.waiters) (unmoved : Unmoved w w') : Sound w' where
  futures p hp := Nat.lt_of_lt_of_le (h.futures p (futures ▸ hp)) hl.cells.length_le
  requests hx := (h.requests (waiters ▸ hx)).mono hl.cells.length_le
  seated hx :=
    have hs := h.seated (waiters ▸ hx)
    ⟨hs.suits, fun hb => Nat.lt_of_lt_of_le (hs.batch_lt hb) hl.batches.length_le⟩
  waits hc hs := by
    obtain ⟨child, hc, hs⟩ := unmoved _ _ _ _ hc hs
    exact (h.waits hc hs).mono hl.cells.length_le

theorem modifyWaiter (h : Sound w) {j : Nat} {s : WaiterStage}
    (hs : ∀ x, w.waiters[j]? = some x →
      ({ x with stage := s } : Waiter V).Seated w.batches.length) :
    Sound (w.modifyWaiter j fun x => { x with stage := s }) := by
  refine { h with requests := fun hy => ?_, seated := fun hy => ?_ }
  · obtain ⟨x, hx, ⟨-, rfl⟩ | ⟨-, rfl⟩⟩ := exists_getElem?_of_modify hy
    · have hq := h.requests hx
      exact hq
    · exact h.requests hx
  · obtain ⟨x, hx, ⟨rfl, rfl⟩ | ⟨-, rfl⟩⟩ := exists_getElem?_of_modify hy
    · exact hs x hx
    · exact h.seated hx

end Sound

theorem openBatch_frame (w : World V) (e : Nat) (name : String) (work : Nat → Body V → Work V)
    (bodies : List (Body V)) :
    (w.openBatch e name work bodies).waiters = w.waiters ∧
    (w.openBatch e name work bodies).futureNames = w.futureNames ∧
    (w.openBatch e name work bodies).executorNames = w.executorNames ∧
    (w.openBatch e name work bodies).clock = w.clock ∧
    (w.openBatch e name work bodies).history = w.history := by
  have h := addBatchChildren_induct (P := fun w' => w'.waiters = w.waiters ∧
    w'.futureNames = w.futureNames ∧ w'.executorNames = w.executorNames ∧ w'.clock = w.clock ∧
    w'.history = w.history) ⟨rfl, rfl, rfl, rfl, rfl⟩ e name (work w.batches.length) 0 bodies
    fun _ _ _ h => h
  exact h

theorem openBatch_children (w : World V) (e : Nat) (name : String)
    (work : Nat → Body V → Work V) (bodies : List (Body V)) :
    ∃ l, (w.openBatch e name work bodies).children = w.children ++ l ∧
      ∀ x ∈ l, x.stage = .created := by
  refine addBatchChildren_induct (P := fun w' => ∃ l, w'.children = w.children ++ l ∧
    ∀ x ∈ l, x.stage = .created) ⟨[], (List.append_nil _).symm, fun x hx => by cases hx⟩ e name
    (work w.batches.length) 0 bodies ?_
  rintro w' name' body ⟨l, hl, hs⟩
  refine ⟨l ++ [_], (congrArg (· ++ [_]) hl).trans (List.append_assoc ..), fun x hx => ?_⟩
  rcases List.mem_append.mp hx with hx | hx
  · exact hs x hx
  · rw [List.mem_singleton.mp hx]

end World

/-- What an operation does to the waiters: one comes, one ends, or the one whose turn it is goes on
to wait. -/
theorem Op.waiters_cases {f f' : Focus} (op : Op f w f' w') :
    w'.waiters = w.waiters ∨
      (∃ x : Waiter V, x.stage = .created ∧ w'.waiters = w.waiters ++ [x]) ∨
      (∃ j, w'.waiters = w.waiters.modify j fun y => { y with stage := .ended }) ∨
      ∃ j x on deadline, f.task? = some (.waiter j) ∧ w.waiters[j]? = some x ∧
        x.Looks on deadline ∧
        w'.waiters = w.waiters.modify j fun y => { y with stage := .waiting on deadline } := by
  cases op with
  | await name hq => exact .inr (.inl ⟨_, rfl, rfl⟩)
  | abort j => exact .inr (.inr (.inl ⟨j, rfl⟩))
  | @answer _ j => exact .inr (.inr (.inl ⟨j, rfl⟩))
  | wait hx he hq hb hc hd => exact .inr (.inr (.inr ⟨_, _, _, _, rfl, hx, he, rfl⟩))
  | cancel hg => exact .inl (cancel_frame ..).2.2.2.1
  | @start _ i child hc he hm hs hr hd => exact .inl (countRun_frame w i child).2.2.1
  | pause rest hc he ho hp | sleep hc he hp hs hk =>
    exact .inl (parkChild_frame _ hc).2.2.2.2.1
  | @finish _ i child r hc he hr hk =>
    exact .inl (finish_frame (w := w.modifyCell child.cell (·.leave r)) r hc).2.2.1
  | stop hc he hb => exact .inl (finish_frame _ hc).2.2.1
  | openBatch name hr hw hn => exact .inl (openBatch_frame ..).1
  | grant count => exact .inl (by rw [addCancelledCells_cells])
  | _ => exact .inl rfl

theorem Op.sound {f f' : Focus} (ho : Op f w f' w') (h : Sound w) : Sound w' := by
  have hl := ho.later
  cases ho with
  | quiet futures waiters threads log notices hf => exact { h with futures := hf }
  | enrol name mark hr hb =>
    exact h.grow hl rfl rfl (.append rfl fun x hx => by rw [List.mem_singleton.mp hx])
  | await name hq =>
    refine { h with requests := fun hx => ?_, seated := fun hx => ?_ }
    · rcases getElem?_concat_iff.mp hx with hx | ⟨-, rfl⟩
      · exact h.requests hx
      · exact hq
    · rcases getElem?_concat_iff.mp hx with hx | ⟨-, rfl⟩
      · exact h.seated hx
      · exact .of_idle (by simp)
  | abort j =>
    have ha := h.modifyWaiter (j := j) (s := .ended) fun x _ => Waiter.Seated.of_idle (by simp)
    exact ⟨ha.futures, ha.requests, ha.seated, ha.waits⟩
  | cancel hg =>
    obtain ⟨-, -, hchildren, hwaiters, -, -, hfutures⟩ := cancel_frame w _ _
    exact h.grow hl hfutures hwaiters (.of_eq hchildren)
  | @start _ i child hc he hm hs hr hd =>
    obtain ⟨-, -, hwaiters, -, -, -, -, hfutures, -⟩ := countRun_frame w i child
    exact h.grow hl hfutures hwaiters (.modify (countRun_children w i child) fun _ _ _ => id)
  | pause rest hc he ho hp =>
    obtain ⟨-, -, hcells, hchildren, hwaiters, hbatches, -, -, hfutures⟩ := parkChild_frame _ hc
    refine ⟨?_, ?_, ?_, fun {k child' on' rest'} hk hs => ?_⟩
    · rw [hfutures, hcells]; exact h.futures
    · rw [hwaiters, hcells]; exact h.requests
    · rw [hwaiters, hbatches]; exact h.seated
    · rw [hchildren] at hk
      rw [hcells]
      obtain ⟨child, hk', ⟨-, rfl⟩ | ⟨-, rfl⟩⟩ := exists_getElem?_of_modify hk
      · cases hs; exact ho
      · exact h.waits hk' hs
  | sleep hc he hp hs hk =>
    obtain ⟨-, -, -, hchildren, hwaiters, -, -, -, hfutures⟩ := parkChild_frame _ hc
    refine h.grow hl hfutures hwaiters (.modify hchildren fun x on rest h => ?_)
    rcases hs with rfl | ⟨due, rfl, -⟩ <;> cases h
  | yield hc he hp hk => exact h.grow hl rfl rfl (.modify rfl fun _ _ _ h => by cases h)
  | @finish _ i child r hc he hr hk =>
    have hf := finish_frame (w := w.modifyCell child.cell (·.leave r)) r hc
    exact h.grow hl hf.2.2.2.2 hf.2.2.1 (.modify hf.2.1 fun _ _ _ h => by cases h)
  | stop hc he hb =>
    have hf := finish_frame .stopped hc
    exact h.grow hl hf.2.2.2.2 hf.2.2.1 (.modify hf.2.1 fun _ _ _ h => by cases h)
  | @openBatch _ _ e work bodies name hr hw hn =>
    obtain ⟨l, hchildren, hc⟩ := openBatch_children w e name work bodies
    have hf := openBatch_frame w e name work bodies
    exact h.grow hl hf.2.1 hf.1 (.append hchildren hc)
  | grant count =>
    rw [addCancelledCells_cells] at hl ⊢
    exact h.grow hl rfl rfl (.of_eq rfl)
  | @wait _ j x on deadline hx he hq hb hc hd =>
    have hs : ∀ y, w.waiters[j]? = some y →
        ({ y with stage := .waiting on deadline } : Waiter V).Seated w.batches.length := by
      intro y hy
      obtain rfl := Option.some.inj (hx.symm.trans hy)
      refine ⟨fun hs => ?_, fun hs => ?_⟩
      · cases hs; exact hq
      · cases hs; exact hb _ rfl
    have ha := h.modifyWaiter hs
    exact ⟨ha.futures, ha.requests, ha.seated, ha.waits⟩
  | answer => exact h.modifyWaiter fun x _ => Waiter.Seated.of_idle (by simp)
  | _ => exact h.grow hl rfl rfl (.of_eq rfl)

theorem Reached.sound {f : Focus} (h : Reached f w) : Sound w := by
  refine h.induct (P := fun _ w => Sound w) (fun jumps => ?_) fun _ ho hw => ho.sound hw
  exact ⟨fun p hp => by simp [World.start] at hp, fun hx => by simp [World.start] at hx,
    fun hx => by simp [World.start] at hx, fun hc => by simp [World.start] at hc⟩

end TimedTasks
