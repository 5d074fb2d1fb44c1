import TimedTasks.Proofs.Growth
/-!
Two lists side by side. Two runs that differ in a few tasks keep their lists in step but for the
members that only one of them has. In lists whose members stand in an order, such members lie
between the others (`Weave`); in lists whose members are known by position, positions are paired
(`Linked`).
-/

namespace TimedTasks

/-! ## Lists in order -/

section Weave

variable {α β : Type} {hl hl' : α → Prop} {hr hr' : β → Prop} {rel rel' : α → β → Prop}
  {l l' : List α} {m m' : List β}

/-- Two lists that agree in order, member by member, but for some that stand in one of them only. -/
inductive Weave (hl : α → Prop) (hr : β → Prop) (rel : α → β → Prop) : List α → List β → Prop
  | nil : Weave hl hr rel [] []
  | left {a l m} : hl a → Weave hl hr rel l m → Weave hl hr rel (a :: l) m
  | right {b l m} : hr b → Weave hl hr rel l m → Weave hl hr rel l (b :: m)
  | both {a b l m} : rel a b → Weave hl hr rel l m → Weave hl hr rel (a :: l) (b :: m)

namespace Weave

theorem flip (h : Weave hl hr rel l m) : Weave hr hl (fun b a => rel a b) m l := by
  induction h with
  | nil => exact .nil
  | left ha _ ih => exact .right ha ih
  | right hb _ ih => exact .left hb ih
  | both hab _ ih => exact .both hab ih

theorem mono (h : Weave hl hr rel l m) (hhl : ∀ a, hl a → hl' a) (hhr : ∀ b, hr b → hr' b)
    (hrel : ∀ a b, rel a b → rel' a b) : Weave hl' hr' rel' l m := by
  induction h with
  | nil => exact .nil
  | left ha _ ih => exact .left (hhl _ ha) ih
  | right hb _ ih => exact .right (hhr _ hb) ih
  | both hab _ ih => exact .both (hrel _ _ hab) ih

theorem append (h : Weave hl hr rel l m) (h' : Weave hl hr rel l' m') :
    Weave hl hr rel (l ++ l') (m ++ m') := by
  induction h with
  | nil => exact h'
  | left ha _ ih => exact .left ha ih
  | right hb _ ih => exact .right hb ih
  | both hab _ ih => exact .both hab ih

theorem concat (h : Weave hl hr rel l m) {a : α} {b : β} (hab : rel a b) :
    Weave hl hr rel (l ++ [a]) (m ++ [b]) := h.append (.both hab .nil)

theorem concat_left (h : Weave hl hr rel l m) {a : α} (ha : hl a) :
    Weave hl hr rel (l ++ [a]) m := by
  simpa using h.append (.left ha .nil)

/-- A choice that treats the members of a pair alike, and drops whatever else it likes. -/
theorem filter (h : Weave hl hr rel l m) {p : α → Bool} {q : β → Bool}
    (hpq : ∀ a b, rel a b → p a = q b) : Weave hl hr rel (l.filter p) (m.filter q) := by
  induction h with
  | nil => exact .nil
  | @left a l m ha _ ih =>
    cases hp : p a with
    | true => rw [List.filter_cons_of_pos hp]; exact .left ha ih
    | false => rw [List.filter_cons_of_neg (by simp [hp])]; exact ih
  | @right b l m hb _ ih =>
    cases hq : q b with
    | true => rw [List.filter_cons_of_pos hq]; exact .right hb ih
    | false => rw [List.filter_cons_of_neg (by simp [hq])]; exact ih
  | @both a b l m hab _ ih =>
    cases hp : p a with
    | true =>
      rw [List.filter_cons_of_pos hp, List.filter_cons_of_pos (hpq a b hab ▸ hp)]
      exact .both hab ih
    | false =>
      have hq : ¬ q b = true := by simp [← hpq a b hab, hp]
      rw [List.filter_cons_of_neg (by simp [hp]), List.filter_cons_of_neg hq]
      exact ih

/-- The members of one list that no pair has. -/
theorem filter_left (h : Weave hl hr rel l m) {p : α → Bool}
    (hp : ∀ a b, rel a b → p a = false) :
    Weave hl hr rel (l.filter p) [] ∧ Weave hl hr rel (l.filter fun a => !p a) m := by
  induction h with
  | nil => exact ⟨.nil, .nil⟩
  | @left a l m ha _ ih =>
    cases hpa : p a with
    | true => simpa [hpa] using ⟨ih.1.left ha, ih.2⟩
    | false => simpa [hpa] using ⟨ih.1, ih.2.left ha⟩
  | right hb _ ih => exact ⟨ih.1, .right hb ih.2⟩
  | @both a b l m hab _ ih =>
    have hpa := hp a b hab
    simpa [hpa] using ⟨ih.1, ih.2.both hab⟩

/-- Two lists of which one holds the images of what may stand on both sides of the other. -/
theorem filter_eq_map (h : Weave hl hr rel l m) {p : α → Bool} {q : β → Bool} {g : β → α}
    (hhl : ∀ a, hl a → p a = false) (hhr : ∀ b, hr b → q b = false)
    (heq : ∀ a b, rel a b → p a = q b ∧ a = g b) : l.filter p = (m.filter q).map g := by
  induction h with
  | nil => rfl
  | left ha _ ih => rw [List.filter_cons_of_neg (by simp [hhl _ ha]), ih]
  | right hb _ ih => rw [List.filter_cons_of_neg (by simp [hhr _ hb]), ih]
  | @both a b l m hab _ ih =>
    obtain ⟨hpq, rfl⟩ := heq a b hab
    rw [List.filter_cons, List.filter_cons, hpq, ih]
    split <;> rfl

/-- Two lists whose members are alike only if equal agree on all that may stand on both sides. -/
theorem filter_eq {hl hr : α → Prop} {rel : α → α → Prop} {l m : List α} {p : α → Bool}
    (h : Weave hl hr rel l m) (hhl : ∀ a, hl a → p a = false) (hhr : ∀ a, hr a → p a = false)
    (heq : ∀ a b, rel a b → a = b) : l.filter p = m.filter p := by
  rw [h.filter_eq_map (g := id) hhl hhr fun a b hab => ⟨congrArg p (heq a b hab), heq a b hab⟩,
    List.map_id]

theorem erase [DecidableEq α] [DecidableEq β] (h : Weave hl hr rel l m) {a : α} {b : β}
    (hla : ¬ hl a) (hrb : ¬ hr b) (hiff : ∀ a' b', rel a' b' → (a' = a ↔ b' = b)) :
    Weave hl hr rel (l.erase a) (m.erase b) := by
  induction h with
  | nil => exact .nil
  | @left a' l m ha _ ih =>
    have hne : a' ≠ a := by rintro rfl; exact hla ha
    rw [List.erase_cons_tail (by simpa using hne)]
    exact .left ha ih
  | @right b' l m hb _ ih =>
    have hne : b' ≠ b := by rintro rfl; exact hrb hb
    rw [List.erase_cons_tail (by simpa using hne)]
    exact .right hb ih
  | @both a' b' l m hab hw ih =>
    by_cases ha : a' = a
    · obtain rfl := ha
      obtain rfl := (hiff a' b' hab).mp rfl
      simpa using hw
    · have hb : b' ≠ b := fun hb => ha ((hiff a' b' hab).mpr hb)
      rw [List.erase_cons_tail (by simpa using ha), List.erase_cons_tail (by simpa using hb)]
      exact .both hab ih

theorem erase_left [DecidableEq α] (h : Weave hl hr rel l m) {a : α}
    (ha : ∀ b, ¬ rel a b) : Weave hl hr rel (l.erase a) m := by
  induction h with
  | nil => exact .nil
  | @left a' l m ha' hw ih =>
    by_cases haa : a' = a
    · obtain rfl := haa
      simpa using hw
    · rw [List.erase_cons_tail (by simpa using haa)]
      exact .left ha' ih
  | right hb _ ih => exact .right hb ih
  | @both a' b' l m hab _ ih =>
    have hne : a' ≠ a := by rintro rfl; exact ha b' hab
    rw [List.erase_cons_tail (by simpa using hne)]
    exact .both hab ih

/-- A list beside itself: each member stands for itself, or stands on each side only. -/
theorem refl {hl hr : α → Prop} {rel : α → α → Prop} {l : List α}
    (h : ∀ a ∈ l, rel a a ∨ hl a ∧ hr a) : Weave hl hr rel l l := by
  induction l with
  | nil => exact .nil
  | cons a l ih =>
    have ih := ih fun b hb => h b (List.mem_cons_of_mem _ hb)
    rcases h a List.mem_cons_self with ha | ⟨hl, hr⟩
    · exact .both ha ih
    · exact .left hl (.right hr ih)

end Weave

end Weave

/-! ## Lists by position -/

/-- Positions that stand for each other: each for one at most. -/
structure Sharp (ρ : Nat → Nat → Prop) : Prop where
  left : ∀ {i j k : Nat}, ρ i k → ρ j k → i = j
  right : ∀ {i j k : Nat}, ρ i j → ρ i k → j = k

namespace Sharp

variable {ρ : Nat → Nat → Prop}

theorem iff (h : Sharp ρ) {i j i' j' : Nat} (hij : ρ i j) (hij' : ρ i' j') : i' = i ↔ j' = j := by
  constructor
  · rintro rfl; exact h.right hij' hij
  · rintro rfl; exact h.left hij' hij

theorem eq : Sharp (fun i j : Nat => i = j) :=
  ⟨fun h h' => h.trans h'.symm, fun h h' => h.symm.trans h'⟩

end Sharp

section Linked

variable {α β : Type} {ρ : Nat → Nat → Prop} {rel rel' : Nat → Nat → α → β → Prop} {l : List α}
  {m : List β} {i j : Nat}

/-- Two lists with alike members at paired positions; what comes at their ends is paired. -/
structure Linked (ρ : Nat → Nat → Prop) (rel : Nat → Nat → α → β → Prop) (l : List α)
    (m : List β) : Prop where
  sharp : Sharp ρ
  rel : ∀ {i j : Nat}, ρ i j → Option.Rel (rel i j) l[i]? m[j]?
  fresh : ∀ n, ρ (l.length + n) (m.length + n)

namespace Linked

theorem get (h : Linked ρ rel l m) (hij : ρ i j) {a : α} (ha : l[i]? = some a) :
    ∃ b, m[j]? = some b ∧ rel i j a b := by
  have hr := h.rel hij
  rw [ha] at hr
  cases hb : m[j]? with
  | none => rw [hb] at hr; cases hr
  | some b =>
    rw [hb] at hr
    cases hr with
    | some hab => exact ⟨b, rfl, hab⟩

theorem get_none (h : Linked ρ rel l m) (hij : ρ i j) (hi : l[i]? = none) : m[j]? = none := by
  have hr := h.rel hij
  rw [hi] at hr
  cases hb : m[j]? with
  | none => rfl
  | some b => rw [hb] at hr; cases hr

/-- Paired positions that hold something hold alike things. -/
theorem get_both (h : Linked ρ rel l m) (hij : ρ i j) {a : α} {b : β} (ha : l[i]? = some a)
    (hb : m[j]? = some b) : rel i j a b := by
  obtain ⟨b', hb', hab⟩ := h.get hij ha
  obtain rfl := Option.some.inj (hb.symm.trans hb')
  exact hab

theorem mono (h : Linked ρ rel l m)
    (hrel : ∀ {i j : Nat} {a : α} {b : β}, ρ i j → l[i]? = some a → m[j]? = some b →
      rel i j a b → rel' i j a b) : Linked ρ rel' l m where
  sharp := h.sharp
  rel {i j} hij := by
    cases hi : l[i]? with
    | none => rw [h.get_none hij hi]; exact .none
    | some a =>
      obtain ⟨b, hb, hab⟩ := h.get hij hi
      rw [hb]
      exact .some (hrel hij hi hb hab)
  fresh := h.fresh

theorem modify (h : Linked ρ rel l m) (hij : ρ i j) {f : α → α} {g : β → β}
    (hfg : ∀ a b, l[i]? = some a → m[j]? = some b → rel i j a b → rel i j (f a) (g b)) :
    Linked ρ rel (l.modify i f) (m.modify j g) where
  sharp := h.sharp
  rel {i' j'} hij' := by
    have hiff := h.sharp.iff hij hij'
    by_cases hi : i' = i
    · obtain rfl := hi
      obtain rfl := hiff.mp rfl
      rw [List.getElem?_modify_eq, List.getElem?_modify_eq]
      cases ha : l[i']? with
      | none => rw [h.get_none hij ha]; exact .none
      | some a =>
        obtain ⟨b, hb, hab⟩ := h.get hij ha
        rw [hb]
        exact .some (hfg a b ha hb hab)
    · have hj : j' ≠ j := fun hj => hi (hiff.mpr hj)
      rw [List.getElem?_modify_ne _ _ (Ne.symm hi), List.getElem?_modify_ne _ _ (Ne.symm hj)]
      exact h.rel hij'
  fresh := by simpa using h.fresh

/-- A change of one list that the other does not notice. -/
theorem modify_left (h : Linked ρ rel l m) {f : α → α}
    (hf : ∀ j a b, ρ i j → l[i]? = some a → rel i j a b → rel i j (f a) b) :
    Linked ρ rel (l.modify i f) m where
  sharp := h.sharp
  rel {i' j'} hij' := by
    by_cases hi : i = i'
    · obtain rfl := hi
      rw [List.getElem?_modify_eq]
      cases ha : l[i]? with
      | none => rw [h.get_none hij' ha]; exact .none
      | some a =>
        obtain ⟨b, hb, hab⟩ := h.get hij' ha
        rw [hb]
        exact .some (hf j' a b hij' ha hab)
    · rw [List.getElem?_modify_ne _ _ hi]
      exact h.rel hij'
  fresh := by simpa using h.fresh

theorem modify_hidden (h : Linked ρ rel l m) (hi : ∀ j, ¬ ρ i j) (f : α → α) :
    Linked ρ rel (l.modify i f) m :=
  h.modify_left fun j _ _ hij => absurd hij (hi j)

theorem append (h : Linked ρ rel l m) {a : α} {b : β} (hab : rel l.length m.length a b) :
    Linked ρ rel (l ++ [a]) (m ++ [b]) where
  sharp := h.sharp
  rel {i j} hij := by
    have hiff := h.sharp.iff (h.fresh 0) hij
    by_cases hi : i = l.length
    · obtain rfl := hi
      obtain rfl := hiff.mp rfl
      simpa using Option.Rel.some hab
    · have hj : j ≠ m.length := fun hj => hi (hiff.mpr hj)
      have old : ∀ {γ : Type} (s : List γ) (c : γ) (k : Nat), k ≠ s.length →
          (s ++ [c])[k]? = s[k]? := by
        intro γ s c k hk
        rw [List.getElem?_append]
        split
        · rfl
        · rw [List.getElem?_eq_none (by simp; omega), List.getElem?_eq_none (by omega)]
      rw [old l a i hi, old m b j hj]
      exact h.rel hij
  fresh n := by
    have := h.fresh (n + 1)
    simpa [Nat.add_assoc, Nat.add_comm 1 n] using this

theorem flip (h : Linked ρ rel l m) {ρ' : Nat → Nat → Prop} {rel' : Nat → Nat → β → α → Prop}
    (hρ : ∀ i j, ρ' j i ↔ ρ i j) (hrel : ∀ i j a b, rel i j a b → rel' j i b a) :
    Linked ρ' rel' m l where
  sharp := ⟨fun hik hjk => h.sharp.right ((hρ _ _).mp hik) ((hρ _ _).mp hjk),
    fun hij hik => h.sharp.left ((hρ _ _).mp hij) ((hρ _ _).mp hik)⟩
  rel {j i} hji := by
    have hij := (hρ i j).mp hji
    cases hi : l[i]? with
    | none => rw [h.get_none hij hi]; exact .none
    | some a =>
      obtain ⟨b, hb, hab⟩ := h.get hij hi
      rw [hb]
      exact .some (hrel i j a b hab)
  fresh n := (hρ _ _).mpr (h.fresh n)

theorem length_eq {rel : Nat → Nat → α → β → Prop} (h : Linked Eq rel l m) :
    l.length = m.length := h.fresh 0

end Linked

end Linked

end TimedTasks
