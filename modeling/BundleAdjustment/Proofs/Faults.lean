import BundleAdjustment.Journal

/-!
Computations that may fail, taken apart.

A sequence of computations succeeds exactly if each of them does (`bind_eq_ok`), and one over a
list exactly if it does on every element (`mapM_eq_ok`). A loop that succeeds has made every one of its
steps (`foldlM_steps`), and one over images of the elements goes like the loop over these
(`foldlM_map_eq`).
-/
namespace BundleAdjustment
variable {ε α β : Type}

theorem bind_eq_ok {x : Except ε α} {f : α → Except ε β} {b : β} :
    x >>= f = .ok b ↔ ∃ a, x = .ok a ∧ f a = .ok b := by
  cases x with
  | error e =>
    constructor
    · intro h
      cases h
    · rintro ⟨a, h, _⟩
      cases h
  | ok a =>
    constructor
    · intro h
      exact ⟨a, rfl, h⟩
    · rintro ⟨a', h, hf⟩
      cases h
      exact hf

/-- A sequence fails at its first step, or after it. -/
theorem bind_eq_error {x : Except ε α} {f : α → Except ε β} {e : ε} :
    x >>= f = .error e ↔ x = .error e ∨ ∃ a, x = .ok a ∧ f a = .error e := by
  cases x with
  | error e' =>
    constructor
    · intro h
      cases h
      exact .inl rfl
    · rintro (h | ⟨a, h, _⟩)
      · cases h
        rfl
      · cases h
  | ok a =>
    constructor
    · exact fun h => .inr ⟨a, rfl, h⟩
    · rintro (h | ⟨a', h, hf⟩)
      · cases h
      · cases h
        exact hf

theorem ok_bind (a : α) (f : α → Except ε β) : (Except.ok a >>= f) = f a := rfl

/-- What succeeds without notes is bound as its result. -/
theorem Noted.lift_bind {γ : Type} {r : Except Fault β} {b : β} (h : r = .ok b) (f : β → Noted α γ) :
    (liftM r >>= f : Noted α γ) = f b := by
  rw [h]
  rfl

/-- What follows a note finds it among those before. -/
theorem Noted.note_bind {γ : Type} (e : Event α) (f : Unit → Noted α γ) (notes : List (Event α)) :
    (Noted.note e >>= f : Noted α γ) notes = f () (notes ++ [e]) := rfl

theorem pure_eq_ok {a b : α} : (pure a : Except ε α) = .ok b ↔ a = b :=
  ⟨fun h => by cases h; rfl, fun h => h ▸ rfl⟩

theorem toOption_eq_some {x : Except ε α} {a : α} : x.toOption = some a ↔ x = .ok a := by
  constructor
  · intro h
    cases x with
    | error e => cases h
    | ok b =>
      cases h
      rfl
  · rintro rfl
    rfl

/-- The results over a list are those of its elements, all of them successes. -/
theorem mapM_eq_ok {f : α → Except ε β} {l : List α} {r : List β} :
    l.mapM f = .ok r ↔ l.map f = r.map .ok := by
  induction l generalizing r with
  | nil => cases r <;> simp [pure, Except.pure]
  | cons a rest ih =>
    rw [List.mapM_cons, bind_eq_ok]
    constructor
    · rintro ⟨b, hb, h⟩
      obtain ⟨bs, hbs, h⟩ := bind_eq_ok.mp h
      rw [← pure_eq_ok.mp h, List.map_cons, List.map_cons, hb, ih.mp hbs]
    · intro h
      cases r with
      | nil => cases h
      | cons b bs =>
        simp only [List.map_cons, List.cons.injEq] at h
        exact ⟨b, h.1, bind_eq_ok.mpr ⟨bs, ih.mpr h.2, rfl⟩⟩

theorem mapM_congr {f g : α → Except ε β} {l : List α} (h : ∀ a ∈ l, f a = g a) : l.mapM f = l.mapM g := by
  induction l with
  | nil => rfl
  | cons a rest ih =>
    rw [List.mapM_cons, List.mapM_cons, h a (List.mem_cons_self ..), ih fun b hb => h b (List.mem_cons_of_mem a hb)]

/-- What fails over a list fails on one of its elements. -/
theorem mapM_eq_error {f : α → Except ε β} {l : List α} {e : ε} (h : l.mapM f = .error e) :
    ∃ a ∈ l, f a = .error e := by
  induction l with
  | nil => cases h
  | cons a rest ih =>
    rw [List.mapM_cons] at h
    rcases bind_eq_error.mp h with h | ⟨b, -, h⟩
    · exact ⟨a, List.mem_cons_self .., h⟩
    · rcases bind_eq_error.mp h with h | ⟨bs, -, h⟩
      · obtain ⟨a', ha', he⟩ := ih h
        exact ⟨a', List.mem_cons_of_mem a ha', he⟩
      · cases h

/-- Where a loop succeeds, each of its steps does, from a state with whatever the steps keep. -/
theorem foldlM_steps {σ : Type} {f : σ → α → Except ε σ} {P : σ → Prop} {l : List α} {s s' : σ}
    (hkeep : ∀ s, ∀ a ∈ l, ∀ s', P s → f s a = .ok s' → P s') (hs : P s) (h : l.foldlM f s = .ok s') :
    P s' ∧ ∀ a ∈ l, ∃ s₁ s₂, P s₁ ∧ f s₁ a = .ok s₂ := by
  induction l generalizing s with
  | nil =>
    cases h
    refine ⟨hs, ?_⟩
    intro a ha
    cases ha
  | cons a rest ih =>
    rw [List.foldlM_cons] at h
    obtain ⟨s₁, h₁, h⟩ := bind_eq_ok.mp h
    have hs₁ := hkeep s a (List.mem_cons_self ..) s₁ hs h₁
    obtain ⟨hs', hrest⟩ := ih (fun s b hb => hkeep s b (List.mem_cons_of_mem a hb)) hs₁ h
    refine ⟨hs', fun b hb => ?_⟩
    rcases List.mem_cons.mp hb with rfl | hb
    · exact ⟨s, s₁, hs, h₁⟩
    · exact hrest b hb

/-- A loop over images from an image goes as the loop itself does, where each step does. -/
theorem foldlM_map_eq {σ τ γ : Type} {f : σ → α → Except ε σ} {g : τ → γ → Except ε τ} {i : σ → τ} {j : α → γ}
    {P : σ → Prop} {l : List α} {s : σ} (hkeep : ∀ s, ∀ a ∈ l, ∀ s', P s → f s a = .ok s' → P s')
    (hstep : ∀ s, ∀ a ∈ l, P s → g (i s) (j a) = i <$> f s a) (hs : P s) :
    (l.map j).foldlM g (i s) = i <$> l.foldlM f s := by
  induction l generalizing s with
  | nil => rfl
  | cons a rest ih =>
    rw [List.map_cons, List.foldlM_cons, List.foldlM_cons, hstep s a (List.mem_cons_self ..) hs]
    cases h : f s a with
    | error e => rfl
    | ok s' =>
      exact ih (fun s b hb => hkeep s b (List.mem_cons_of_mem a hb))
        (fun s b hb => hstep s b (List.mem_cons_of_mem a hb)) (hkeep s a (List.mem_cons_self ..) s' hs h)

/-- A loop over images goes as that over the elements, where each step does. -/
theorem foldlM_map_congr {σ γ : Type} {f : σ → α → Except ε σ} {g : σ → γ → Except ε σ} {j : α → γ} {l : List α}
    (h : ∀ s, ∀ a ∈ l, g s (j a) = f s a) (s : σ) : (l.map j).foldlM g s = l.foldlM f s := by
  rw [← id_map (l.foldlM f s)]
  refine foldlM_map_eq (i := id) (P := fun _ => True) (fun _ _ _ _ _ _ => trivial) (fun s a ha _ => ?_) trivial
  rw [id_map]
  exact h s a ha

theorem foldlM_step_of_mem {σ : Type} {f : σ → α → Except ε σ} {l : List α} {s s' : σ}
    (h : l.foldlM f s = .ok s') {a : α} (ha : a ∈ l) : ∃ s₁ s₂, f s₁ a = .ok s₂ := by
  obtain ⟨s₁, s₂, -, hstep⟩ :=
    (foldlM_steps (P := fun _ => True) (fun _ _ _ _ _ _ => trivial) trivial h).2 a ha
  exact ⟨s₁, s₂, hstep⟩

end BundleAdjustment
