import BundleAdjustment.Proofs.Faults

/-!
Computations with notes, by what they give.

A computation that does not read the journal (`Blind`) gives the same whatever has been noted, so
that it is known by its `value`, the result from an empty journal. A sequence of such computations
gives what the sequence of their values gives (`value_bind`, `value_mapM`, `value_foldlM`), which
leaves the notes out of every argument about results.
-/
namespace BundleAdjustment.Noted
variable {α β γ : Type}

/-- What a computation gives, without its notes. -/
def value (m : Noted α β) : Except Fault β := m.start.1

/-- What a computation gives does not depend on what has been noted before it. -/
def Blind (m : Noted α β) : Prop := ∀ notes, (m.run.run notes).1 = m.value

theorem run_bind (m : Noted α β) (f : β → Noted α γ) (notes : List (Event α)) :
    (m >>= f).run.run notes =
      match m.run.run notes with
      | (.ok b, notes') => (f b).run.run notes'
      | (.error e, notes') => (.error e, notes') := by
  show (match m.run.run notes with | (r, notes') => ExceptT.bindCont f r notes') = _
  rcases m.run.run notes with ⟨r, notes'⟩
  cases r <;> rfl

theorem value_bind {m : Noted α β} {f : β → Noted α γ} (hf : ∀ b, Blind (f b)) :
    (m >>= f).value = m.value >>= fun b => (f b).value := by
  unfold value start
  rw [run_bind]
  rcases hm : m.run.run [] with ⟨r, notes⟩
  cases r with
  | error e => rfl
  | ok b => exact hf b notes

theorem Blind.bind {m : Noted α β} {f : β → Noted α γ} (hm : Blind m) (hf : ∀ b, Blind (f b)) :
    Blind (m >>= f) := by
  intro notes
  have hm := hm notes
  rw [value_bind hf, ← hm, run_bind]
  rcases m.run.run notes with ⟨r, notes'⟩
  cases r with
  | error e => rfl
  | ok b => exact hf b notes'

theorem blind_lift (r : Except Fault β) : Blind (liftM r : Noted α β) := fun _ => rfl

theorem value_lift (r : Except Fault β) : (liftM r : Noted α β).value = r := rfl

theorem run_lift (r : Except Fault β) (notes : List (Event α)) :
    (liftM r : Noted α β).run.run notes = (r, notes) := rfl

/-- A sequence without notes of its own may be taken as one step. -/
theorem liftM_bind (r : Except Fault β) (f : β → Except Fault γ) :
    (liftM (r >>= f) : Noted α γ) = liftM r >>= fun b => liftM (f b) := by
  cases r <;> rfl

theorem liftM_mapM (f : γ → Except Fault β) (l : List γ) :
    (l.mapM fun c => (liftM (f c) : Noted α β)) = liftM (l.mapM f) := by
  induction l with
  | nil => rfl
  | cons c rest ih =>
    rw [List.mapM_cons, List.mapM_cons, ih, liftM_bind]
    congr 1
    funext b
    rw [liftM_bind]
    rfl

theorem blind_pure (b : β) : Blind (pure b : Noted α β) := fun _ => rfl

theorem blind_note (e : Event α) : Blind (note e) := fun _ => rfl

theorem blind_throw (e : Fault) : Blind (throw e : Noted α β) := fun _ => rfl

theorem blind_mapM {f : γ → Noted α β} (h : ∀ c, Blind (f c)) (l : List γ) : Blind (l.mapM f) := by
  induction l with
  | nil => exact blind_pure []
  | cons c rest ih =>
    rw [List.mapM_cons]
    exact (h c).bind fun b => ih.bind fun bs => blind_pure (b :: bs)

theorem value_mapM {f : γ → Noted α β} (h : ∀ c, Blind (f c)) (l : List γ) :
    (l.mapM f).value = l.mapM fun c => (f c).value := by
  induction l with
  | nil => rfl
  | cons c rest ih =>
    rw [List.mapM_cons, List.mapM_cons, ← ih,
      value_bind fun b => (blind_mapM h rest).bind fun bs => blind_pure (b :: bs)]
    congr 1
    funext b
    exact value_bind fun bs => blind_pure (b :: bs)

theorem blind_foldlM {f : β → γ → Noted α β} (h : ∀ b c, Blind (f b c)) (b : β) (l : List γ) :
    Blind (l.foldlM f b) := by
  induction l generalizing b with
  | nil => exact blind_pure b
  | cons c rest ih => exact (h b c).bind ih

theorem value_foldlM {f : β → γ → Noted α β} (h : ∀ b c, Blind (f b c)) (b : β) (l : List γ) :
    (l.foldlM f b).value = l.foldlM (fun b c => (f b c).value) b := by
  induction l generalizing b with
  | nil => rfl
  | cons c rest ih =>
    rw [List.foldlM_cons, List.foldlM_cons, value_bind fun b => blind_foldlM h b rest]
    congr 1
    funext b
    exact ih b

end BundleAdjustment.Noted
