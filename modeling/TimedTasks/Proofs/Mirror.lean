import TimedTasks.Proofs.Abreast
/-!
A state beside itself. Two runs part at some state, so they are paired there as that state is with
itself: each cell and each child stands for itself, or is veiled on both sides.
-/

namespace TimedTasks

open World

variable {V : Type} {σ : Pairing} {w : World V} {f : Focus}

theorem Linked.refl {α : Type} {rel : Nat → Nat → α → α → Prop} {l : List α}
    (h : ∀ i a, l[i]? = some a → rel i i a a) : Linked Eq rel l l where
  sharp := .eq
  rel := by
    rintro i _ rfl
    exact Option.Rel.of_some (h i)
  fresh _ := rfl

namespace Pairing

theorem Stages.refl {s : Stage V}
    (h : ∀ c joined rest, s = .suspended (.cell c joined) rest → σ.cell c c) : σ.Stages s s := by
  cases s with
  | created => exact .created
  | scheduled due => exact .scheduled due
  | suspended on rest =>
    refine .suspended ?_ rest
    cases on with
    | time t => exact .time t
    | cell c joined => exact .cell (h c joined rest rfl) joined
    | forever => exact .forever
  | stranded => exact .stranded
  | ended => exact .ended

theorem Batches.refl {x : Batch V} (h : ∀ c ∈ x.cells, σ.cell c c) : σ.Batches x x :=
  ⟨List.forall₂_same.mpr h, rfl, rfl, rfl, rfl⟩

/-- Each cell and each child of a state stands for itself, or is veiled on both sides. -/
structure Mirrors (σ : Pairing) (w : World V) : Prop where
  cells : ∀ c < w.cells.length, σ.cell c c ∨ σ.left.cell c ∧ σ.right.cell c
  children : ∀ i < w.children.length, σ.child i i ∨ σ.left.child i ∧ σ.right.child i

namespace Mirrors

theorem waiters (h : σ.Mirrors w) (hr : Reached f w) {j : Nat} {x : Waiter V}
    (hx : w.waiters[j]? = some x) (hbegin : x.stage = .created → σ.MayBegin x.request)
    (hname : x.stage ≠ .ended → σ.MayName x.name x.request) : σ.Waiters x x := by
  refine ⟨rfl, ?_, hbegin, hname, hbegin, hname⟩
  have stages (hawaits : ∀ on, x.request.Suits on → σ.Awaits on on) :
      σ.WaiterStages x.stage x.stage := by
    cases hs : x.stage with
    | created => exact .created
    | waiting on deadline => exact .waiting (hawaits on ((hr.sound.seated hx).suits hs)) deadline
    | ended => exact .ended
  have within := hr.sound.requests hx
  revert stages within
  cases x.request with
  | get c bound =>
    intro stages hc
    rcases h.cells c hc with hcell | hveiled
    · exact .inl ⟨.get hcell bound, stages fun on ho => ho ▸ .cell hcell⟩
    · exact .inr hveiled
  | termination e bound =>
    intro stages _
    by_cases he : e = σ.executor
    · exact .inr ⟨he, he⟩
    · exact .inl ⟨.termination he bound, stages fun on ho => ho ▸ .termination he⟩
  | invokeAll e bodies bound =>
    exact fun stages _ => .inl ⟨.invokeAll e bodies bound, stages fun _ ⟨b, ho⟩ => ho ▸ .batch b⟩
  | invokeAny e bodies bound =>
    exact fun stages _ => .inl ⟨.invokeAny e bodies bound, stages fun _ ⟨b, ho⟩ => ho ▸ .batch b⟩

theorem refs (h : σ.Mirrors w) (hr : Reached f w)
    (hw : ∀ (j : Nat) (x : Waiter V), w.waiters[j]? = some x → σ.Waiters x x) {r : TaskRef}
    (hm : r ∈ w.queue) :
    σ.Refs w.waiters w.waiters r r ∨ σ.left.ref w.waiters r ∧ σ.right.ref w.waiters r := by
  have known := hr.placed.known r (List.mem_append_right _ hm)
  cases r with
  | child i =>
    obtain ⟨child, hc, -⟩ : ∃ child, w.children[i]? = some child ∧ child.hasEnded = false := by
      rcases known with hl | ⟨k, -, heq⟩
      · exact live_child.mp hl
      · cases heq
    exact (h.children i (List.getElem?_eq_some_iff.mp hc).1).imp_left .child
  | waiter j =>
    obtain ⟨x, hx⟩ : ∃ x, w.waiters[j]? = some x := by
      rcases known with hl | ⟨k, hk, heq⟩
      · rw [Live, List.getElem?_map] at hl
        obtain ⟨x, hx, -⟩ := Option.map_eq_some_iff.mp hl
        exact ⟨x, hx⟩
      · obtain rfl : j = k := by simpa using heq
        exact ⟨_, List.getElem?_eq_getElem hk⟩
    rcases (hw j x hx).request with ⟨hq, -⟩ | ⟨hl, hr⟩
    · exact .inl (.waiter hx hx hq)
    · exact .inr ⟨⟨x, hx, hl⟩, ⟨x, hx, hr⟩⟩
  | watcher e =>
    by_cases he : e = σ.executor
    · exact .inr ⟨he, he⟩
    · exact .inl (.watcher he)

theorem registry (h : σ.Mirrors w) (hr : Reached f w) {e : Nat} {x : Executor}
    (hx : w.executors[e]? = some x) :
    Weave σ.left.child σ.right.child σ.child x.registry x.registry := by
  refine .refl fun i hi => h.children i ?_
  obtain ⟨child, hc, -⟩ := ((hr.audited e x hx).registry i).mp hi
  exact (List.getElem?_eq_some_iff.mp hc).1

theorem happenings (h : σ.Mirrors w) (hr : Reached f w) {p : Instant × Happening V}
    (hp : p ∈ w.history) :
    σ.Happenings p.2 p.2 ∨ σ.left.happening p.2 ∧ σ.right.happening p.2 := by
  have cells (c : Nat) (hc : p.2.cell? = some c) := h.cells c (hr.judged.within p hp c hc)
  revert cells
  cases p.2 with
  | called c => exact fun cells => (cells c rfl).imp_left .called
  | polled c => exact fun cells => (cells c rfl).imp_left .polled
  | ended c r => exact fun cells => (cells c rfl).imp_left (.ended · r)
  | cancelled c => exact fun cells => (cells c rfl).imp_left .cancelled
  | asked e => exact fun _ => .inl (.asked e)
  | draining e => exact fun _ => .inl (.draining e)
  | terminated e => exact fun _ => .inl (.terminated e)

end Mirrors

end Pairing

end TimedTasks
