import TimedTasks.Proofs.Journey
/-!
A call that a body makes comes in the middle of a turn. The rest of that turn is the rest of the
body and what follows the run; two runs that are paired where the call was made are side by side
again when the turn is over.
-/

namespace TimedTasks

open World

variable {V : Type}

namespace World

/-- The rest of a turn of a child whose body acts: the steps that the body has left, and what
follows the run. -/
def goOn (w : World V) (i : Nat) (steps : List (Step V)) (rounds : Nat) : World V :=
  match w.children[i]? with
  | none => w
  | some child =>
    let r := w.runSteps child.name steps
    let r := r.1.closeRun child.cell r.2
    r.1.closeTurn i child rounds r.2

variable {w v : World V} {i : Nat} {child : Child V}

theorem goOn_eq (hc : w.children[i]? = some child) (steps : List (Step V)) (rounds : Nat) :
    w.goOn i steps rounds =
      ((w.runSteps child.name steps).1.closeRun child.cell
        (w.runSteps child.name steps).2).1.closeTurn i child rounds
          ((w.runSteps child.name steps).1.closeRun child.cell
            (w.runSteps child.name steps).2).2 := by
  simp only [goOn, hc]

/-- A body that makes a call goes on in the same turn, with the answer noted. -/
theorem goOn_act (c : Call V) (steps : List (Step V)) (rounds : Nat)
    (hc : w.children[i]? = some child) (hc' : (w.perform c).1.children[i]? = some child) :
    w.goOn i (.act c :: steps) rounds =
      ((w.perform c).1.note child.name (.answered (w.perform c).2)).goOn i steps rounds := by
  have hn : ((w.perform c).1.note child.name (.answered (w.perform c).2)).children[i]? =
      some child := hc'
  rw [goOn_eq hc, goOn_eq hn]
  rfl

/-- The end of a run cancels nothing. -/
theorem isSignalled_closeRun (w : World V) (c : Nat) (p : Progress V) (k : Nat) :
    (w.closeRun c p).1.isSignalled k = w.isSignalled k := by
  cases p with
  | suspended on rest => rfl
  | ended r =>
    cases r with
    | panicked => rfl
    | _ =>
      refine isSignalled_modify (c := c) rfl ?_
      exact fun _ => rfl

theorem goOn_leads (steps : List (Step V)) (rounds : Nat) :
    Leads (.caller (some i)) w (.caller none) (w.goOn i steps rounds) := by
  apply Leads.known
  intro hr
  obtain ⟨child, hc, he⟩ := hr.tended.acting rfl
  obtain ⟨hops, hfits⟩ := runSteps_leads child.name steps hr
  have h : w.Has i child := ⟨child, hc, .refl child, he⟩
  have h₂ := h.stretch hr hops rfl
  rw [goOn_eq hc]
  exact Leads.trans (fun _ => hops) (closeTurn_leads h₂ hfits rounds)

/-! ## What a turn leaves of a body -/

/-- What is left of the body of a child, if it is suspended, is such. -/
def LeftWith (P : List (Step V) → Prop) (w : World V) (i : Nat) : Prop :=
  ∀ child, w.children[i]? = some child → ∀ on rest, child.stage = .suspended on rest → P rest

variable {P : List (Step V) → Prop}

theorem LeftWith.setStage {s : Stage V} (hs : ∀ on rest, s = .suspended on rest → P rest) :
    (w.setStage i s).LeftWith P i := by
  intro child hc on rest hst
  obtain ⟨x, -, ⟨-, rfl⟩ | ⟨hi, -⟩⟩ := exists_getElem?_of_modify hc
  · exact hs on rest hst
  · exact absurd rfl hi

theorem LeftWith.of_children (h : w.LeftWith P i) (hc : v.children = w.children) :
    v.LeftWith P i := fun child hx => h child (hc ▸ hx)

theorem LeftWith.parkChild {s : Stage V} (hs : ∀ on rest, s = .suspended on rest → P rest) :
    (w.parkChild i s).LeftWith P i := by
  refine (LeftWith.setStage (w := w) hs).of_children ?_
  unfold World.parkChild
  dsimp only
  split
  · rfl
  · split <;> rfl

theorem LeftWith.finish (child : Child V) (r : RunEnd V) : (w.finish i child r).LeftWith P i := by
  unfold World.finish
  intro x hx on rest hst
  cases hc : (w.deliver child r).children[i]? with
  | none => simp [endChild, hc] at hx
  | some y =>
    have hended := ended_of_modify (endChild_frame hc).2.1 x hx
    rw [Child.hasEnded, hst] at hended
    cases hended

theorem LeftWith.afterOnce (i : Nat) (child : Child V) {p : Progress V}
    (hp : ∀ on rest, p = .suspended on rest → P rest) : (w.afterOnce i child p).LeftWith P i := by
  cases p with
  | suspended on rest =>
    refine .parkChild ?_
    rintro _ _ ⟨⟩
    exact hp on rest rfl
  | ended r => exact .finish child r

theorem LeftWith.afterFiring (w : World V) (i : Nat) (child : Child V) (pace : Pace)
    {p : Progress V} (hp : ∀ on rest, p = .suspended on rest → P rest)
    (hs : (w.afterFiring i child pace p).2 = .settled) :
    (w.afterFiring i child pace p).1.LeftWith P i := by
  cases p with
  | suspended on rest =>
    refine .parkChild ?_
    rintro _ _ ⟨⟩
    exact hp on rest rfl
  | ended r =>
    cases r with
    | returned value =>
      simp only [World.afterFiring] at hs ⊢
      split at hs
      · cases hs
      · split
        · exact .finish child .stopped
        · exact .parkChild (by simp)
    | failed cause => exact .finish child _
    | stopped => exact .finish child _
    | panicked => exact .finish child _

end World

namespace World.Paired

variable {σ : Pairing} {κ : Nat → Nat → Prop} {w v : World V} {i j : Nat}
  {child child' : Child V} {p : Prop}

/-- What is left of a body that refers to nothing that is veiled. -/
theorem Stint.polite {r r' : World V × Progress V} (h : Stint σ κ r r') :
    ∀ on rest, r.2 = .suspended on rest → σ.Polite (Step.mentionsOf rest) := by
  intro on rest hr
  obtain ⟨w, p⟩ := r
  obtain ⟨v, q⟩ := r'
  obtain ⟨-, hpq⟩ := h
  cases hpq with
  | suspended _ hp => cases hr; exact hp
  | ended r => cases hr

theorem StintLeft.rest {r : World V × Progress V} (h : StintLeft σ κ v w r) :
    ∀ on rest, r.2 = .suspended on rest → ∀ x ∈ rest, x.Tame σ := by
  intro on rest hr
  have ht := h.tame
  rw [hr] at ht
  exact ht

theorem leftWith_rounds (h : Paired σ κ w v) (hi : σ.child i j)
    (hc : σ.Children κ i j child child') {pace : Pace} {runs : List (Body V)}
    (hw : child.work = .periodic pace runs) (hf : Free σ i j child) (n : Nat) :
    (w.periodicRounds i child pace runs n).LeftWith (σ.Polite <| Step.mentionsOf ·) i := by
  have hp : σ.Ahead (σ.start i j) (.periodic pace runs) := hw ▸ hf.1
  induction n generalizing w v with
  | zero => exact (LeftWith.setStage (by simp)).of_children rfl
  | succ n ih =>
    simp only [World.periodicRounds]
    split
    · exact .finish child .stopped
    · split
      · exact .parkChild (by simp)
      · have hstint : Stint σ κ (w.fire i child pace runs) (v.fire j child' pace runs) :=
          h.fire hi hc hp
        have hleft := LeftWith.afterFiring (w.fire i child pace runs).1 i child pace hstint.polite
        obtain ⟨h₁, -⟩ := afterFiring hi hc pace hstint
        revert hleft h₁
        generalize (w.fire i child pace runs).1.afterFiring i child pace
          (w.fire i child pace runs).2 = r
        obtain ⟨w', a⟩ := r
        intro hleft h₁
        cases a with
        | settled => exact hleft rfl
        | again => exact ih h₁

theorem leftWith_rounds_left (h : Paired σ κ w v) (hi : σ.left.child i)
    (hc : child.Veiled σ σ.left p) (hw : σ.left.who w.children w.waiters child.name) {m : Nat}
    (hm : m ≤ runsOf w i) {pace : Pace} {runs : List (Body V)}
    (ht : ∀ k, m ≤ k → (bodyForRun runs k).Tame σ) (n : Nat) :
    (w.periodicRounds i child pace runs n).LeftWith (∀ x ∈ ·, Step.Tame σ x) i := by
  induction n generalizing w with
  | zero => exact (LeftWith.setStage (by simp)).of_children rfl
  | succ n ih =>
    simp only [World.periodicRounds]
    split
    · exact .finish child .stopped
    · split
      · exact .parkChild (by simp)
      · obtain ⟨-, ht₁, -⟩ := h.fire_left hi hc hw hm pace ht
        have hleft := LeftWith.afterFiring (P := (∀ x ∈ ·, Step.Tame σ x))
          (w.fire i child pace runs).1 i child pace
          fun on rest (hp : (w.fire i child pace runs).2 = .suspended on rest) => by
            rw [hp] at ht₁
            exact ht₁
        split
        · rename_i hr
          rw [hr] at hleft
          exact hleft rfl
        · rename_i hr
          obtain ⟨h₂, hagain⟩ := h.round_left hi hc hw hm pace ht hr
          obtain ⟨hw₂, hm₂⟩ := hagain rfl
          exact ih h₂ hw₂ hm₂

/-! ## The rest of a turn on both sides -/

/-- What is left of a body after what follows a piece of its run. -/
theorem leftWith_closeTurn {r r' : World V × Progress V} (hstint : Stint σ κ r r')
    (hi : σ.child i j) (hc : σ.Children κ i j child child')
    (hf : child.work.kind = .periodic → r.1.isSignalled child.cell = true ∨ Free σ i j child)
    (rounds : Nat) :
    (r.1.closeTurn i child rounds r.2).LeftWith (σ.Polite <| Step.mentionsOf ·) i := by
  unfold World.closeTurn
  split
  · rename_i pace runs hw
    have hf := hf (by rw [hw, Work.kind])
    obtain ⟨h₁, -⟩ := afterFiring hi hc pace hstint
    have hleft := LeftWith.afterFiring r.1 i child pace hstint.polite
    split
    · rename_i hr
      rw [hr] at hleft
      exact hleft rfl
    · rename_i w₁ hr
      rw [hr] at h₁
      rcases hf with hs | hf
      · -- A child that was cancelled while its body acted starts no further run.
        rw [isSignalled_of_again hr] at hs
        cases rounds with
        | zero => exact (LeftWith.setStage (by simp)).of_children rfl
        | succ n =>
          rw [periodicRounds_of_signalled hs]
          exact .finish child .stopped
      · exact h₁.leftWith_rounds hi hc hw hf rounds
  · exact .afterOnce i child hstint.polite

theorem leftWith_closeTurn_left {r : World V × Progress V} (hstint : StintLeft σ κ v w r)
    (hi : σ.left.child i) (hc : child.Veiled σ σ.left p)
    (hw : σ.left.who w.children w.waiters child.name) (hn : child.runs ≤ runsOf w i)
    (rounds : Nat) : (r.1.closeTurn i child rounds r.2).LeftWith (∀ x ∈ ·, Step.Tame σ x) i := by
  obtain ⟨hw, hn⟩ := hstint.known hw hn
  have htame := hc.work
  unfold World.closeTurn
  split
  · rename_i pace runs hwork
    rw [hwork] at htame
    have hleft := LeftWith.afterFiring r.1 i child pace hstint.rest
    split
    · rename_i hr
      rw [hr] at hleft
      exact hleft rfl
    · rename_i hr
      obtain ⟨h₁, hagain⟩ := hstint.paired.again_left hi hc hw hn pace hstint.tame hr
      obtain ⟨hw₁, hn₁⟩ := hagain rfl
      exact h₁.leftWith_rounds_left hi hc hw₁ hn₁ htame rounds
  · exact .afterOnce i child hstint.rest

/-- The child whose turn it is goes on in both runs. -/
theorem goOn (h : Paired σ κ w v) (hr : Reached (.caller (some i)) w) (hi : σ.child i j)
    (hpast : σ.past i j → w.Past i) {steps : List (Step V)}
    (hp : σ.Polite (Step.mentionsOf steps)) (rounds : Nat) :
    Paired σ κ (w.goOn i steps rounds) (v.goOn j steps rounds) ∧
      (w.goOn i steps rounds).LeftWith (σ.Polite <| Step.mentionsOf ·) i := by
  obtain ⟨child, hx, he⟩ := hr.tended.acting rfl
  obtain ⟨child', hy, hc⟩ := h.child hi hx
  have hstint := closeRun (h.runSteps child.name hp) hc.cell
  have hf : child.work.kind = .periodic →
      ((w.runSteps child.name steps).1.closeRun child.cell
        (w.runSteps child.name steps).2).1.isSignalled child.cell = true ∨ Free σ i j child := by
    intro hk
    refine hc.goesOn.imp (fun hpast' => ?_) id
    obtain ⟨x, hx', hs | ⟨hn, -⟩⟩ := hpast hpast'
    · obtain rfl := Option.some.inj (hx.symm.trans hx')
      rw [isSignalled_closeRun]
      obtain ⟨hops, -⟩ := runSteps_leads child.name steps hr
      exact hops.ops.later.isSignalled (hr.signalled hx he hs)
    · obtain rfl := Option.some.inj (hx.symm.trans hx')
      exact absurd hk hn
  rw [goOn_eq hx, goOn_eq hy, ← hc.name]
  exact ⟨closeTurn hstint hi hc hf rounds, leftWith_closeTurn hstint hi hc hf rounds⟩

/-- A veiled child whose turn it is goes on in its run. -/
theorem goOn_left (h : Paired σ κ w v) (hi : σ.left.child i) {steps : List (Step V)}
    (ht : ∀ x ∈ steps, x.Tame σ) (rounds : Nat) :
    Paired σ κ (w.goOn i steps rounds) v ∧
      (w.goOn i steps rounds).LeftWith (∀ x ∈ ·, Step.Tame σ x) i := by
  cases hx : w.children[i]? with
  | none =>
    have hsame : w.goOn i steps rounds = w := by simp only [World.goOn, hx]
    rw [hsame]
    exact ⟨h, fun child hc => by simp [hx] at hc⟩
  | some child =>
    have hc := h.veiledLeft i child hx hi
    have hname : σ.left.who w.children w.waiters child.name := .inl ⟨i, child, hi, hx, rfl⟩
    have hn : child.runs ≤ runsOf w i := by rw [runsOf, hx]; exact Nat.le_refl _
    have hstint := closeRun_left (h.runSteps_left hname ht) hc.cell
    rw [goOn_eq hx]
    exact ⟨closeTurn_left hstint hi hc hname hn rounds,
      leftWith_closeTurn_left hstint hi hc hname hn rounds⟩

/-- After the turn the child is like all others. -/
theorem putBy (h : Paired σ κ w v) (hκ : ∀ a b, κ a b → a = i ∧ b = j)
    (hboth : σ.child i j → w.LeftWith (σ.Polite <| Step.mentionsOf ·) i)
    (hleft : σ.left.child i → w.LeftWith (∀ x ∈ ·, Step.Tame σ x) i)
    (hright : σ.right.child j → v.LeftWith (∀ x ∈ ·, Step.Tame σ x) j) : Paired σ nobody w v :=
  { h with
    children := h.children.mono fun hij ha _ hab => { hab with
      rest := fun on rest hs => by
        refine .inr ((hab.rest on rest hs).elim (fun hk => ?_) id)
        obtain ⟨rfl, rfl⟩ := hκ _ _ hk
        exact hboth hij _ ha on rest hs }
    veiledLeft := fun a child hc hv =>
      { h.veiledLeft a child hc hv with
        stage := fun on rest hs => by
          refine .inr (((h.veiledLeft a child hc hv).stage on rest hs).elim ?_ id)
          rintro ⟨b, hk⟩
          obtain ⟨rfl, rfl⟩ := hκ _ _ hk
          exact hleft hv _ hc on rest hs }
    veiledRight := fun b child hc hv =>
      { h.veiledRight b child hc hv with
        stage := fun on rest hs => by
          refine .inr (((h.veiledRight b child hc hv).stage on rest hs).elim ?_ id)
          rintro ⟨a, hk⟩
          obtain ⟨rfl, rfl⟩ := hκ _ _ hk
          exact hright hv _ hc on rest hs } }

end World.Paired

/-- When the turn in which a call was made is over on both sides, the runs are side by side. -/
theorem Abreast.goOn {σ : Pairing} {κ : Nat → Nat → Prop} {w v : World V} {i j : Nat}
    (h : Paired σ κ w v) (hκ : ∀ a b, κ a b → a = i ∧ b = j) (hw : Reached (.caller (some i)) w)
    (hv : Reached (.caller (some j)) v) (hpast : ∀ a b, σ.past a b → w.Past a ∧ v.Past b)
    {steps : List (Step V)}
    (hs : σ.child i j ∧ σ.Polite (Step.mentionsOf steps) ∨
      σ.left.child i ∧ σ.right.child j ∧ ∀ x ∈ steps, x.Tame σ) (rounds : Nat) :
    Abreast σ (w.goOn i steps rounds) (v.goOn j steps rounds) where
  paired := by
    rcases hs with ⟨hi, hp⟩ | ⟨hi, hj, ht⟩
    · obtain ⟨h₁, hleft⟩ := h.goOn hw hi (fun hij => (hpast i j hij).1) hp rounds
      exact h₁.putBy hκ (fun _ => hleft) (fun hv => absurd hi (hv j)) fun hv => absurd hi (hv i)
    · obtain ⟨h₁, hleft⟩ := h.goOn_left hi ht rounds
      obtain ⟨h₂, hright⟩ := h₁.flip.goOn_left hj (fun x hx => (ht x hx).flip) rounds
      exact h₂.flip.putBy hκ (fun hij => absurd hij (hi j)) (fun _ => hleft) fun _ => hright
  left := (goOn_leads steps rounds).reached hw
  right := (goOn_leads steps rounds).reached hv
  past a b hab := (hpast a b hab).imp (goOn_leads steps rounds hw).ops.later.past
    (goOn_leads steps rounds hv).ops.later.past

end TimedTasks
