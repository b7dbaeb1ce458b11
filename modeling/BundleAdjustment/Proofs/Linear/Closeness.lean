import BundleAdjustment.Proofs.Exact
import BundleAdjustment.Proofs.Faults
import BundleAdjustment.Linear.Factor

/-!
Equality within a tolerance.

Factors are compared by a chain of checks: kind and keys, models, right-hand sides, matrices. Each check
`Decides` a question about two factors, and together they decide whether the factors are `Related`: of one
kind and one shape throughout, with entries in the same places that are close (`decides_equals`). Two of the
checks align shapes that they do not compare. There two factors can `Clash`, and then have no answer, or be
answered as if the shorter one was repeated. Where shapes are `Comparable`, and the relative slack of
comparisons makes no difference to any two entries, equality is equality within the tolerance and symmetric
(`equals_within`).
-/
namespace BundleAdjustment

/-! ### Checks that answer a question -/

/-- A check that has an answer, to the question whether `P`. -/
def Decides (x : Except Fault Bool) (P : Prop) : Prop := ∃ b, x = .ok b ∧ (b = true ↔ P)

namespace Decides
variable {x y : Except Fault Bool} {P Q : Prop}

theorem of_ok (b : Bool) : Decides (.ok b) (b = true) := ⟨b, rfl, Iff.rfl⟩

theorem no (h : ¬ P) : Decides (.ok false) P :=
  ⟨false, rfl, fun hf => absurd hf Bool.false_ne_true, fun hp => absurd hp h⟩

theorem congr (h : Decides x P) (hPQ : P ↔ Q) : Decides x Q := by
  obtain ⟨b, hb, hP⟩ := h
  exact ⟨b, hb, hP.trans hPQ⟩

/-- The second check is made where the first one holds. -/
theorem and (hx : Decides x P) (hy : P → Decides y Q) :
    Decides (x >>= fun b => if b = true then y else pure false) (P ∧ Q) := by
  obtain ⟨b, rfl, hb⟩ := hx
  cases b with
  | false => exact no fun h => Bool.false_ne_true (hb.mpr h.1)
  | true =>
    have hP : P := hb.mp rfl
    exact (hy hP).congr ⟨fun hQ => ⟨hP, hQ⟩, And.right⟩

theorem guard (hx : Decides x P) (hy : P → Decides y Q) :
    Decides (x >>= fun b => if (!b) = true then pure false else y) (P ∧ Q) := by
  have hswap : (fun b : Bool => if (!b) = true then (pure false : Except Fault Bool) else y) =
      fun b => if b = true then y else pure false := by
    funext b
    cases b <;> rfl
  rw [hswap]
  exact hx.and hy

theorem eq (hx : Decides x P) (hy : Decides y Q) (hPQ : P ↔ Q) : x = y := by
  obtain ⟨b, rfl, hb⟩ := hx
  obtain ⟨c, rfl, hc⟩ := hy
  rw [Bool.eq_iff_iff.mpr (hb.trans (hPQ.trans hc.symm))]

theorem exists_ok (hx : Decides x P) : ∃ b, x = .ok b := hx.imp fun _ h => h.1

theorem of_exists (h : ∃ b, x = .ok b) : Decides x (x = .ok true) := by
  obtain ⟨b, rfl⟩ := h
  exact ⟨b, rfl, fun hb => congrArg Except.ok hb, Except.ok.inj⟩

end Decides

/-! ### Arrays -/

theorem length_of_mem_positions {s p : List Nat} (h : p ∈ positions s) : p.length = s.length := by
  induction s generalizing p with
  | nil => rw [List.mem_singleton.mp h]
  | cons n s ih =>
    obtain ⟨i, -, hp⟩ := List.mem_flatMap.mp h
    obtain ⟨q, hq, rfl⟩ := List.mem_map.mp hp
    rw [List.length_cons, List.length_cons, ih hq]

namespace Tensor

/-- A position of a shape is its own place in an array of the shape. -/
theorem restrict_of_mem {s p : List Nat} (h : p ∈ positions s) : restrict s p = p := by
  rw [restrict, length_of_mem_positions h, Nat.sub_self, List.drop_zero]
  induction s generalizing p with
  | nil => rw [List.mem_singleton.mp h]; rfl
  | cons n s ih =>
    obtain ⟨i, hi, hp⟩ := List.mem_flatMap.mp h
    obtain ⟨q, hq, rfl⟩ := List.mem_map.mp hp
    have hi : i < n := List.mem_range.mp hi
    have hplace : (if n = 1 then 0 else i) = i := by split <;> omega
    rw [List.zipWith_cons_cons, ih hq, hplace]

theorem align_same (s : List Nat) : align s s = some s := by
  have hreversed : ∀ r : List Nat, alignReversed r r = some r := by
    intro r
    induction r with
    | nil => rfl
    | cons n r ih => simp [alignReversed, ih]
  rw [align, hreversed, Option.map_some, List.reverse_reverse]

theorem align_singleton {m n : Nat} : align [m] [n] = none ↔ m ≠ n ∧ m ≠ 1 ∧ n ≠ 1 := by
  simp only [align, alignReversed, List.reverse_singleton]
  by_cases h : m = n ∨ n = 1
  · have hno : ¬ (m ≠ n ∧ m ≠ 1 ∧ n ≠ 1) := by omega
    simp [h, hno]
  · rw [not_or] at h
    by_cases h1 : m = 1
    · have hn : ¬ 1 = n := fun hn => h.2 hn.symm
      simp [h, h1, hn]
    · simp [h, h1]

variable {α : Type} [Scalar α] (tolerance : α) {a b : Tensor α}

/-- Arrays of one shape whose entries in the same places are related. -/
def Related (R : α → α → Prop) (a b : Tensor α) : Prop :=
  a.shape = b.shape ∧ ∀ p ∈ positions a.shape, R (a.get p) (b.get p)

theorem close_of_align_none (h : align a.shape b.shape = none) : a.close tolerance b = .error .shapeMismatch := by
  rw [close, zipWith, h]
  rfl

theorem exists_close (h : align a.shape b.shape ≠ none) : ∃ c, a.close tolerance b = .ok c := by
  obtain ⟨s, hs⟩ := Option.ne_none_iff_exists'.mp h
  rw [close, zipWith, hs]
  exact ⟨_, rfl⟩

/-- On arrays of one shape the comparison goes from entry to entry. -/
theorem decides_close (h : a.shape = b.shape) :
    Decides (a.close tolerance b) (a.Related (fun x y => Scalar.close tolerance x y = true) b) := by
  rw [close, zipWith, ← h, align_same]
  refine ⟨_, rfl, ?_⟩
  rw [ofFn, List.all_toArray, List.all_map, List.all_eq_true]
  refine ⟨fun hall => ⟨h, fun p hp => ?_⟩, fun hrel p hp => ?_⟩
  · have hclose := hall p hp
    rwa [Function.comp_apply, id, restrict_of_mem hp] at hclose
  · rw [Function.comp_apply, id, restrict_of_mem hp]
    exact hrel.2 p hp

theorem Related.congr {R S : α → α → Prop} (h : a.shape = b.shape → ∀ p ∈ positions a.shape,
    (R (a.get p) (b.get p) ↔ S (a.get p) (b.get p))) : a.Related R b ↔ a.Related S b :=
  and_congr_right fun hs => forall₂_congr fun p hp => h hs p hp

theorem Related.symm {R : α → α → Prop} (hR : ∀ x y, R x y → R y x) (h : a.Related R b) : b.Related R a :=
  ⟨h.1.symm, fun p hp => hR _ _ (h.2 p (h.1.symm ▸ hp))⟩

end Tensor

/-! ### Models -/

namespace Noise
variable {α : Type} [Scalar α] (tolerance : α)

/-- No models, or models of one kind and shape with related deviations and the same penalty weight. -/
def Related (R : α → α → Prop) : Option (Noise α) → Option (Noise α) → Prop
  | none, none => True
  | some m, some n => m.sameKind n = true ∧ m.sigmas.Related R n.sigmas ∧ m.sameWeight n = true
  | _, _ => False

omit [Scalar α] in
theorem rows_eq_of_shape {m n : Noise α} {r s : Nat} (hm : m.rows? = some r) (hn : n.rows? = some s)
    (h : m.sigmas.shape = n.sigmas.shape) : r = s := by
  rw [rows?, h] at hm
  exact Option.some.inj (hm.symm.trans hn)

section Pair
variable {m n : Noise α} {r s : Nat} (hm : m.rows? = some r) (hn : n.rows? = some s)
include hm hn

/-- Models of different kinds or numbers of rows are told apart before their deviations are looked at. -/
theorem equals_of_differ (h : ¬ (m.sameKind n = true ∧ r = s)) : m.equals tolerance n = .ok false := by
  rw [equals, dim_of_rows? hm, dim_of_rows? hn]
  by_cases hk : m.sameKind n = true
  · have hne : s ≠ r := fun hsr => h ⟨hk, hsr.symm⟩
    simp only [hk, ok_bind, if_pos hne]
    rfl
  · rw [Bool.not_eq_true] at hk
    rw [hk]
    rfl

theorem equals_of_same (hk : m.sameKind n = true) (hrs : r = s) : m.equals tolerance n =
    (m.sigmas.close tolerance n.sigmas >>= fun b => if b = true then .ok (m.sameWeight n) else pure false) := by
  rw [equals, dim_of_rows? hm, dim_of_rows? hn, hk, hrs]
  simp only [ok_bind, ne_eq, not_true_eq_false, if_false]
  rfl

theorem decides_equals (hshape : m.sameKind n = true → r = s → m.sigmas.shape = n.sigmas.shape) :
    Decides (m.equals tolerance n) (Related (fun x y => Scalar.close tolerance x y = true) (some m) (some n)) := by
  by_cases h : m.sameKind n = true ∧ r = s
  · rw [equals_of_same tolerance hm hn h.1 h.2]
    exact ((Tensor.decides_close tolerance (hshape h.1 h.2)).and fun _ => .of_ok _).congr
      (and_iff_right h.1).symm
  · rw [equals_of_differ tolerance hm hn h]
    exact .no fun hrel => h ⟨hrel.1, rows_eq_of_shape hm hn hrel.2.1.1⟩

end Pair

section Options
variable {m n : Option (Noise α)} {r s : Nat} (hm : ModelRows m r) (hn : ModelRows n s)
include hm hn

/-- Optional models are compared if both are there. -/
theorem decides_modelsEqual (hshape : ∀ a b, m = some a → n = some b → a.sameKind b = true → r = s →
    a.sigmas.shape = b.sigmas.shape) :
    Decides (modelsEqual tolerance m n) (Related (fun x y => Scalar.close tolerance x y = true) m n) := by
  cases m with
  | none =>
    cases n with
    | none => exact ⟨true, rfl, iff_of_true rfl trivial⟩
    | some b => exact .no id
  | some a =>
    cases n with
    | none => exact .no id
    | some b => exact decides_equals tolerance (hm a rfl) (hn b rfl) (hshape a b rfl rfl)

end Options
end Noise

/-! ### Factors -/

namespace LinearFactor
variable {α : Type} [Scalar α] (tolerance : α) {f g : LinearFactor α}

/-- Factors of one kind with the same keys, of the same shapes throughout, with models of one kind and
penalty weight, whose deviations, right-hand sides and matrices have related entries in the same places. -/
structure Related (R : α → α → Prop) (f g : LinearFactor α) : Prop where
  kind : f.kind.same g.kind = true
  keys : f.keys = g.keys
  rows : f.rows = g.rows
  model : Noise.Related R f.model g.model
  rhs : (Tensor.ofVec f.rhs).Related R (.ofVec g.rhs)
  blocks : List.Forall₂ (fun A B => (Tensor.ofMat A).Related R (.ofMat B)) f.blocks g.blocks

/-- Shapes are compared for matrices only, so that these numbers of rows, or these arrays of deviations,
cannot be set against each other. -/
structure Clash (f g : LinearFactor α) : Prop where
  kind : f.kind.same g.kind = true
  keys : f.keys = g.keys
  shapes : (f.model = none ∧ g.model = none ∧ f.rows ≠ g.rows ∧ f.rows ≠ 1 ∧ g.rows ≠ 1) ∨
    ∃ m n, f.model = some m ∧ g.model = some n ∧ m.sameKind n = true ∧ f.rows = g.rows ∧
      Tensor.align m.sigmas.shape n.sigmas.shape = none

/-- The shapes that are not compared agree: without models there are as many rows, or a matrix tells that
there are not, and models of one kind that count the same rows have deviations of one shape. -/
structure Matched (f g : LinearFactor α) : Prop where
  rows : f.model = none → g.model = none → f.rows = g.rows ∨ f.keys ≠ [] ∧ (f.rows = 1 ∨ g.rows = 1)
  sigmas : ∀ m n, f.model = some m → g.model = some n → m.sameKind n = true → f.rows = g.rows →
    m.sigmas.shape = n.sigmas.shape

/-- Shapes agree wherever the comparison gets to them. -/
def Comparable (f g : LinearFactor α) : Prop := f.kind.same g.kind = true → f.keys = g.keys → Matched f g

theorem decides_blocksClose {as bs : List (Mat α)} (h : as.length = bs.length) :
    Decides (blocksClose tolerance as bs)
      (List.Forall₂ (fun A B => (Tensor.ofMat A).Related (fun x y => Scalar.close tolerance x y = true) (.ofMat B))
        as bs) := by
  induction as generalizing bs with
  | nil =>
    cases bs with
    | nil => exact ⟨true, rfl, iff_of_true rfl .nil⟩
    | cons B bs => cases h
  | cons A as ih =>
    cases bs with
    | nil => cases h
    | cons B bs =>
      rw [blocksClose]
      by_cases hshape : A.rows = B.rows ∧ A.cols = B.cols
      · have hshapes : (Tensor.ofMat A).shape = (Tensor.ofMat B).shape := by
          rw [Tensor.shape_ofMat, Tensor.shape_ofMat, hshape.1, hshape.2]
        rw [if_pos hshape]
        have hrest := (Tensor.decides_close tolerance hshapes).and fun _ => ih (Nat.succ.inj h)
        exact hrest.congr (by rw [List.forall₂_cons])
      · rw [if_neg hshape]
        refine .no fun hrel => hshape ?_
        have hshapes : [A.rows, A.cols] = [B.rows, B.cols] := (List.forall₂_cons.mp hrel).1.1
        simpa using hshapes

omit [Scalar α] in
theorem length_blocks (h : f.keys = g.keys) : f.blocks.length = g.blocks.length := by
  have hlength := congrArg List.length h
  simpa [keys, Table.keys, blocks] using hlength

/-- The comparison of models, after that of kinds and keys. -/
theorem equals_of_same (hk : f.kind.same g.kind = true) (hkeys : f.keys = g.keys) : f.equals tolerance g =
    (Noise.modelsEqual tolerance f.model g.model >>= fun b => if (!b) = true then pure false else
      (Tensor.ofVec f.rhs).close tolerance (.ofVec g.rhs) >>= fun b =>
        if b = true then blocksClose tolerance f.blocks g.blocks else pure false) := by
  rw [equals, if_neg (by simp [hk, hkeys])]

theorem equals_of_differ (h : ¬ (f.kind.same g.kind = true ∧ f.keys = g.keys)) :
    f.equals tolerance g = .ok false := by
  rw [equals, if_pos]
  · rfl
  · rcases not_and_or.mp h with hk | hk
    · simp [hk]
    · simp [hk]

/-- Without models, numbers of rows that differ are told by the first matrix at the latest. -/
theorem not_related_blocks {R : α → α → Prop} (hkeys : f.keys ≠ []) (hrows : f.rows ≠ g.rows) :
    ¬ List.Forall₂ (fun A B => (Tensor.ofMat A).Related R (.ofMat B)) f.blocks g.blocks := by
  intro hrel
  cases hf : f.terms.entries with
  | nil => exact hkeys (by rw [keys, Table.keys, hf]; rfl)
  | cons e rest =>
    cases hg : g.terms.entries with
    | nil =>
      rw [blocks, blocks, hf, hg] at hrel
      cases hrel
    | cons e' rest' =>
      rw [blocks, blocks, hf, hg] at hrel
      have hshape : [e.2.rows, e.2.cols] = [e'.2.rows, e'.2.cols] := (List.forall₂_cons.mp hrel).1.1
      have he := f.rows_eq e (hf ▸ List.mem_cons_self ..)
      have he' := g.rows_eq e' (hg ▸ List.mem_cons_self ..)
      rw [he, he'] at hshape
      exact hrows (List.cons.inj hshape).1

/-- With related models there are as many rows, or a matrix tells that there are not. -/
theorem Matched.rows_eq_or {R : α → α → Prop} (h : Matched f g) (hmodel : Noise.Related R f.model g.model) :
    f.rows = g.rows ∨ f.keys ≠ [] ∧ (f.rows = 1 ∨ g.rows = 1) := by
  cases hf : f.model with
  | none =>
    cases hg : g.model with
    | none => exact h.rows hf hg
    | some n =>
      rw [hf, hg] at hmodel
      exact hmodel.elim
  | some m =>
    cases hg : g.model with
    | none =>
      rw [hf, hg] at hmodel
      exact hmodel.elim
    | some n =>
      rw [hf, hg] at hmodel
      exact .inl (Noise.rows_eq_of_shape (f.model_rows m hf) (g.model_rows n hg) hmodel.2.1.1)

/-- **The checks decide whether factors are related**, where the shapes that they do not compare are
comparable. -/
theorem decides_equals (h : Comparable f g) :
    Decides (f.equals tolerance g) (Related (fun x y => Scalar.close tolerance x y = true) f g) := by
  by_cases hsame : f.kind.same g.kind = true ∧ f.keys = g.keys
  · obtain ⟨hkind, hkeys⟩ := hsame
    have hmatched := h hkind hkeys
    have hmodels := Noise.decides_modelsEqual tolerance f.model_rows g.model_rows hmatched.sigmas
    have hblocks := decides_blocksClose tolerance (length_blocks hkeys)
    rw [equals_of_same tolerance hkind hkeys]
    refine (hmodels.guard fun hmodel => (?_ : Decides _ (_ ∧ _))).congr
      ⟨fun ⟨hmodel, hrhs, hblocks⟩ => ⟨hkind, hkeys, (List.cons.inj hrhs.1).1, hmodel, hrhs, hblocks⟩,
        fun hrel => ⟨hrel.model, hrel.rhs, hrel.blocks⟩⟩
    by_cases heq : f.rows = g.rows
    · exact (Tensor.decides_close tolerance (congrArg (fun n => [n]) heq)).and fun _ => hblocks
    · obtain ⟨hne, hone⟩ := (hmatched.rows_eq_or hmodel).resolve_left heq
      have halign : Tensor.align [f.rows] [g.rows] ≠ none := by
        rw [Ne, Tensor.align_singleton]
        omega
      obtain ⟨c, hc⟩ := Tensor.exists_close tolerance (a := .ofVec f.rhs) (b := .ofVec g.rhs) halign
      have hno := not_related_blocks (R := fun x y => Scalar.close tolerance x y = true) hne heq
      rw [hc]
      exact ((Decides.of_ok c).and fun _ => hblocks).congr
        ⟨fun hrel => absurd hrel.2 hno, fun hrel => absurd hrel.2 hno⟩
  · rw [equals_of_differ tolerance hsame]
    exact .no fun hrel => hsame ⟨hrel.kind, hrel.keys⟩

/-! What has no answer -/

theorem equals_of_clash (h : Clash f g) : f.equals tolerance g = .error .shapeMismatch := by
  rw [equals_of_same tolerance h.kind h.keys]
  rcases h.shapes with ⟨hf, hg, hrows⟩ | ⟨m, n, hf, hg, hk, hrows, halign⟩
  · have hclose := Tensor.close_of_align_none tolerance (a := .ofVec f.rhs) (b := .ofVec g.rhs)
      (Tensor.align_singleton.mpr hrows)
    rw [hf, hg, hclose]
    rfl
  · have hmodel : Noise.modelsEqual tolerance f.model g.model = m.equals tolerance n := by rw [hf, hg]; rfl
    rw [hmodel, Noise.equals_of_same tolerance (f.model_rows m hf) (g.model_rows n hg) hk hrows,
      Tensor.close_of_align_none tolerance halign]
    rfl

/-- Without a clash the comparison of the models has an answer, and if that is yes, the right-hand sides can
be set against each other. -/
theorem decides_modelsEqual_of_not_clash (hk : f.kind.same g.kind = true) (hkeys : f.keys = g.keys)
    (h : ¬ Clash f g) : ∃ P, Decides (Noise.modelsEqual tolerance f.model g.model) P ∧
      (P → Tensor.align [f.rows] [g.rows] ≠ none) := by
  cases hf : f.model with
  | none =>
    cases hg : g.model with
    | none =>
      refine ⟨True, ⟨true, rfl, iff_of_true rfl trivial⟩, fun _ halign => h ?_⟩
      exact ⟨hk, hkeys, .inl ⟨hf, hg, Tensor.align_singleton.mp halign⟩⟩
    | some n => exact ⟨False, .no id, False.elim⟩
  | some m =>
    cases hg : g.model with
    | none => exact ⟨False, .no id, False.elim⟩
    | some n =>
      have hm := f.model_rows m hf
      have hn := g.model_rows n hg
      have hmodel : Noise.modelsEqual tolerance (some m) (some n) = m.equals tolerance n := rfl
      by_cases hsame : m.sameKind n = true ∧ f.rows = g.rows
      · obtain ⟨c, hc⟩ := Tensor.exists_close tolerance (a := m.sigmas) (b := n.sigmas) fun halign =>
          h ⟨hk, hkeys, .inr ⟨m, n, hf, hg, hsame.1, hsame.2, halign⟩⟩
        refine ⟨c = true ∧ m.sameWeight n = true, ?_, fun _ => ?_⟩
        · rw [hmodel, Noise.equals_of_same tolerance hm hn hsame.1 hsame.2, hc]
          exact (Decides.of_ok c).and fun _ => .of_ok _
        · rw [hsame.2, Tensor.align_same]
          exact Option.some_ne_none _
      · refine ⟨False, ?_, False.elim⟩
        rw [hmodel, Noise.equals_of_differ tolerance hm hn hsame]
        exact .no id

theorem exists_answer (h : ¬ Clash f g) : ∃ b, f.equals tolerance g = .ok b := by
  by_cases hsame : f.kind.same g.kind = true ∧ f.keys = g.keys
  · obtain ⟨hk, hkeys⟩ := hsame
    obtain ⟨P, hP, halign⟩ := decides_modelsEqual_of_not_clash tolerance hk hkeys h
    rw [equals_of_same tolerance hk hkeys]
    refine (hP.guard fun hp => .of_exists ?_).exists_ok
    obtain ⟨c, hc⟩ := Tensor.exists_close tolerance (a := .ofVec f.rhs) (b := .ofVec g.rhs) (halign hp)
    rw [hc]
    exact ((Decides.of_ok c).and fun _ => decides_blocksClose tolerance (length_blocks hkeys)).exists_ok
  · exact ⟨false, equals_of_differ tolerance hsame⟩

/-- **Factors have no answer exactly if they clash.** -/
theorem equals_eq_error_iff : (∃ e, f.equals tolerance g = .error e) ↔ Clash f g := by
  constructor
  · rintro ⟨e, he⟩
    by_contra h
    obtain ⟨b, hb⟩ := exists_answer tolerance h
    cases he.symm.trans hb
  · exact fun h => ⟨_, equals_of_clash tolerance h⟩

end LinearFactor

/-! ### Within the tolerance -/

namespace Scalar
variable {K : Type} [ExactScalar K] {tolerance x y : K}

theorem abs_eq (x : K) : abs x = |x| := by
  unfold abs
  split
  · rename_i hneg
    exact (abs_of_neg hneg).symm
  · rename_i hneg
    exact (abs_of_nonneg (not_lt.mp hneg)).symm

theorem close_iff (tolerance x y : K) :
    close tolerance x y = true ↔ |x - y| ≤ tolerance + relativeSlack * |y| := by
  simp only [close, isFinite, sub_self, same_eq_decide, decide_true, Bool.and_self, if_true, decide_eq_true_eq,
    abs_eq]

theorem relativeSlack_nonneg : (0 : K) ≤ relativeSlack := by
  -- The literal of a scalar is that of the field.
  have h : (0 : K) ≤ @OfScientific.ofScientific K NNRatCast.toOfScientific 1 true 5 := by norm_num
  exact h

/-- Two numbers that the relative slack makes no difference to, in either order. -/
def Clear (tolerance x y : K) : Prop := |x - y| ≤ tolerance ∨ tolerance + relativeSlack * max |x| |y| < |x - y|

theorem Clear.symm (h : Clear tolerance x y) : Clear tolerance y x := by
  rwa [Clear, abs_sub_comm, max_comm]

theorem Clear.close_iff (h : Clear tolerance x y) : close tolerance x y = true ↔ |x - y| ≤ tolerance := by
  rw [Scalar.close_iff]
  refine ⟨fun hclose => h.resolve_right fun hfar => ?_, fun hle => ?_⟩
  · have hmax := mul_le_mul_of_nonneg_left (le_max_right |x| |y|) (relativeSlack_nonneg (K := K))
    exact absurd (hclose.trans (add_le_add_right hmax _)) (not_le.mpr hfar)
  · exact hle.trans (le_add_of_nonneg_right (mul_nonneg relativeSlack_nonneg (abs_nonneg y)))

end Scalar

variable {K : Type} [ExactScalar K] {tolerance : K}

/-- Numbers in the same places that the relative slack makes no difference to. -/
def Tensor.Clear (tolerance : K) (a b : Tensor K) : Prop :=
  a.shape = b.shape → ∀ p ∈ positions a.shape, Scalar.Clear tolerance (a.get p) (b.get p)

theorem Tensor.Clear.symm {a b : Tensor K} (h : a.Clear tolerance b) : b.Clear tolerance a :=
  fun hs p hp => (h hs.symm p (hs ▸ hp)).symm

def Within (tolerance x y : K) : Prop := |x - y| ≤ tolerance

theorem Within.symm {x y : K} (h : Within tolerance x y) : Within tolerance y x := by
  rwa [Within, abs_sub_comm]

theorem Tensor.Clear.related_iff {a b : Tensor K} (h : a.Clear tolerance b) :
    a.Related (fun x y => Scalar.close tolerance x y = true) b ↔ a.Related (Within tolerance) b :=
  Related.congr fun hs p hp => (h hs p hp).close_iff

namespace Noise
variable {m n : Option (Noise K)}

omit [ExactScalar K] in
theorem sameKind_comm (m n : Noise K) : m.sameKind n = n.sameKind m := by
  cases m <;> cases n <;> rfl

theorem sameWeight_comm (m n : Noise K) : m.sameWeight n = n.sameWeight m := by
  cases m <;> cases n <;> simp [sameWeight, eq_comm]

theorem related_iff (h : ∀ a b, m = some a → n = some b → a.sigmas.Clear tolerance b.sigmas) :
    Related (fun x y => Scalar.close tolerance x y = true) m n ↔ Related (Within tolerance) m n := by
  cases m with
  | none => cases n <;> exact Iff.rfl
  | some a =>
    cases n with
    | none => exact Iff.rfl
    | some b => exact and_congr_right fun _ => and_congr_left fun _ => (h a b rfl rfl).related_iff

theorem Related.symm (h : Related (Within tolerance) m n) : Related (Within tolerance) n m := by
  cases m with
  | none =>
    cases n with
    | none => exact trivial
    | some b => exact h
  | some a =>
    cases n with
    | none => exact h
    | some b =>
      obtain ⟨hk, hs, hw⟩ := h
      exact ⟨sameKind_comm a b ▸ hk, hs.symm fun _ _ => Within.symm, sameWeight_comm a b ▸ hw⟩

end Noise

theorem FactorKind.same_comm (k k' : FactorKind) : k.same k' = k'.same k := by
  cases k <;> cases k' <;> rfl

namespace LinearFactor
variable {f g : LinearFactor K}

/-- The relative slack makes no difference to any two entries in the same places. -/
structure Clear (tolerance : K) (f g : LinearFactor K) : Prop where
  sigmas : ∀ m n, f.model = some m → g.model = some n → m.sigmas.Clear tolerance n.sigmas
  rhs : (Tensor.ofVec f.rhs).Clear tolerance (.ofVec g.rhs)
  blocks : ∀ (i : Nat) A B, f.blocks[i]? = some A → g.blocks[i]? = some B →
    (Tensor.ofMat A).Clear tolerance (.ofMat B)

theorem Clear.symm (h : Clear tolerance f g) : Clear tolerance g f where
  sigmas := fun m n hm hn => (h.sigmas n m hn hm).symm
  rhs := h.rhs.symm
  blocks := fun i A B hA hB => (h.blocks i B A hB hA).symm

omit [ExactScalar K] in
theorem Comparable.symm (h : Comparable f g) : Comparable g f := by
  intro hk hkeys
  obtain ⟨hrows, hsigmas⟩ := h (FactorKind.same_comm g.kind f.kind ▸ hk) hkeys.symm
  refine ⟨fun hg hf => ?_, fun m n hm hn hkind hr => ?_⟩
  · rcases hrows hf hg with heq | ⟨hne, hone⟩
    · exact .inl heq.symm
    · exact .inr ⟨hkeys ▸ hne, hone.symm⟩
  · exact (hsigmas n m hn hm (Noise.sameKind_comm m n ▸ hkind) hr.symm).symm

theorem Clear.related_iff (h : Clear tolerance f g) :
    Related (fun x y => Scalar.close tolerance x y = true) f g ↔ Related (Within tolerance) f g := by
  have hmodel := Noise.related_iff h.sigmas
  have hrhs := h.rhs.related_iff
  have hblocks : List.Forall₂ (fun A B => (Tensor.ofMat A).Related
      (fun x y => Scalar.close tolerance x y = true) (.ofMat B)) f.blocks g.blocks ↔
      List.Forall₂ (fun A B => (Tensor.ofMat A).Related (Within tolerance) (.ofMat B)) f.blocks g.blocks := by
    rw [List.forall₂_iff_get, List.forall₂_iff_get]
    refine and_congr_right fun _ => forall_congr' fun i => forall₂_congr fun hi hi' => ?_
    exact (h.blocks i _ _ (List.getElem?_eq_getElem hi) (List.getElem?_eq_getElem hi')).related_iff
  exact ⟨fun hrel => ⟨hrel.kind, hrel.keys, hrel.rows, hmodel.mp hrel.model, hrhs.mp hrel.rhs,
      hblocks.mp hrel.blocks⟩,
    fun hrel => ⟨hrel.kind, hrel.keys, hrel.rows, hmodel.mpr hrel.model, hrhs.mpr hrel.rhs,
      hblocks.mpr hrel.blocks⟩⟩

theorem Related.symm (h : Related (Within tolerance) f g) : Related (Within tolerance) g f where
  kind := FactorKind.same_comm f.kind g.kind ▸ h.kind
  keys := h.keys.symm
  rows := h.rows.symm
  model := h.model.symm
  rhs := h.rhs.symm fun _ _ => Within.symm
  blocks := (h.blocks.imp fun _ _ hrel => hrel.symm fun _ _ => Within.symm).flip

/-- **Equality of factors is equality within the tolerance**, and symmetric, wherever the shapes that it does
not compare agree and no two entries lie in its relative slack. With such shapes it always has an answer;
there is none exactly where shapes clash. -/
theorem equals_within (tolerance : K) (f g : LinearFactor K) :
    ((∃ e, f.equals tolerance g = .error e) ↔ Clash f g) ∧
    (Comparable f g → Decides (f.equals tolerance g)
      (Related (fun x y => |x - y| ≤ tolerance + Scalar.relativeSlack * |y|) f g)) ∧
    (Comparable f g → Clear tolerance f g →
      Decides (f.equals tolerance g) (Related (fun x y => |x - y| ≤ tolerance) f g) ∧
        g.equals tolerance f = f.equals tolerance g) := by
  refine ⟨equals_eq_error_iff tolerance, fun h => ?_, fun h hclear => ?_⟩
  · simpa only [Scalar.close_iff] using decides_equals tolerance h
  · have hfg := (decides_equals tolerance h).congr hclear.related_iff
    have hgf := (decides_equals tolerance h.symm).congr hclear.symm.related_iff
    exact ⟨hfg, hgf.eq hfg ⟨Related.symm, Related.symm⟩⟩

/-- A key whose matrix is a column of ones, with any right-hand side. -/
def ones (b : Vec ℚ) : LinearFactor ℚ where
  kind := .general
  terms := ⟨[(.number 0, Mat.ofFn b.size 1 fun _ _ => 1)], List.nodup_singleton _⟩
  rhs := b
  model := none
  rows_eq := fun e he => by
    rw [List.mem_singleton.mp he]
    rfl
  model_rows := fun m hm => by cases hm
  fits := trivial

/-- Right-hand sides that differ by a quarter are equal within a half. -/
theorem equals_within_ones :
    Comparable (ones ⟨#[1, 2]⟩) (ones ⟨#[1, 9 / 4]⟩) ∧ Clear (1 / 2) (ones ⟨#[1, 2]⟩) (ones ⟨#[1, 9 / 4]⟩) ∧
      (ones ⟨#[1, 2]⟩).equals (1 / 2) (ones ⟨#[1, 9 / 4]⟩) = .ok true ∧
      (ones ⟨#[1, 9 / 4]⟩).equals (1 / 2) (ones ⟨#[1, 2]⟩) = .ok true := by
  have hcomparable : Comparable (ones ⟨#[1, 2]⟩) (ones ⟨#[1, 9 / 4]⟩) := by
    intro _ _
    refine ⟨fun _ _ => .inl rfl, fun m n hm => ?_⟩
    cases hm
  have hrhs : ∀ p ∈ positions [2], Within (1 / 2 : ℚ) ((Tensor.ofVec ⟨#[1, 2]⟩).get p)
      ((Tensor.ofVec ⟨#[1, 9 / 4]⟩).get p) := by
    unfold Within
    decide +kernel
  have hblock : ∀ p ∈ positions [2, 1], Within (1 / 2 : ℚ) ((Tensor.ofMat (Mat.ofFn 2 1 fun _ _ => 1)).get p)
      ((Tensor.ofMat (Mat.ofFn 2 1 fun _ _ => 1)).get p) := by
    unfold Within
    decide +kernel
  have hclear : Clear (1 / 2) (ones ⟨#[1, 2]⟩) (ones ⟨#[1, 9 / 4]⟩) := by
    refine ⟨fun m n hm => ?_, fun _ p hp => .inl (hrhs p hp), fun i A B hA hB => ?_⟩
    · cases hm
    · cases i with
      | zero =>
        cases hA
        cases hB
        exact fun _ p hp => .inl (hblock p hp)
      | succ i => cases hA
  obtain ⟨⟨b, hb, hyes⟩, hsymm⟩ := (equals_within (1 / 2) (ones ⟨#[1, 2]⟩) (ones ⟨#[1, 9 / 4]⟩)).2.2
    hcomparable hclear
  have htrue : b = true := hyes.mpr ⟨rfl, rfl, rfl, trivial, ⟨rfl, hrhs⟩, .cons ⟨rfl, hblock⟩ .nil⟩
  rw [htrue] at hb
  exact ⟨hcomparable, hclear, hb, hsymm.trans hb⟩

/-- Two rows and three have no answer, and a difference of two hundred thousand and one is no difference for
one order of two factors. -/
theorem equals_ones :
    (ones ⟨#[1, 1]⟩).equals 1 (ones ⟨#[1, 1, 1]⟩) = .error .shapeMismatch ∧
      (ones ⟨#[20000000000]⟩).equals 0 (ones ⟨#[20000200001]⟩) = .ok true ∧
      (ones ⟨#[20000200001]⟩).equals 0 (ones ⟨#[20000000000]⟩) = .ok false := by
  refine ⟨rfl, ?_, ?_⟩
  · decide +kernel
  · decide +kernel

end LinearFactor
end BundleAdjustment
