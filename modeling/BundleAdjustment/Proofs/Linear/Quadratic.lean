import BundleAdjustment.Proofs.Linear.Assembly
import BundleAdjustment.Proofs.Solver.Loops

/-!
The quadratic function of a linear factor.

A factor answers in many forms: its error and its residual at a point, its gradient at zero, products
with its Hessian, its whitened matrices side by side, and two diagonals. Each form decides for itself
how often it whitens. With one deviation for each row they are all of one function
`½ |W (A x - b)|²`, for any number of keys (`forms_agree`). Without, the error is defined where the
gradient is not (`forms_twoDeviations`).
-/
namespace BundleAdjustment
open Matrix
variable {K : Type} [ExactScalar K]

theorem Table.eq_of_entries {κ β : Type} {t t' : Table κ β} (h : t.entries = t'.entries) : t = t' := by
  cases t
  cases t'
  cases h
  rfl

namespace Mat

/-! ### Matrices side by side -/

theorem rows_foldl_beside (A : Mat K) (l : List (Mat K)) : (l.foldl beside A).rows = A.rows := by
  induction l generalizing A with
  | nil => rfl
  | cons B rest ih => exact ih (A.beside B)

theorem cols_foldl_beside (A : Mat K) (l : List (Mat K)) :
    (l.foldl beside A).cols = A.cols + (l.map cols).sum := by
  induction l generalizing A with
  | nil => rfl
  | cons B rest ih =>
    rw [List.foldl_cons, ih, List.map_cons, List.sum_cons, ← Nat.add_assoc]
    rfl

theorem get_foldl_beside_of_lt {A : Mat K} {l : List (Mat K)} {k j : Nat} (hk : k < A.rows) (hj : j < A.cols) :
    (l.foldl beside A).get k j = A.get k j := by
  induction l generalizing A with
  | nil => rfl
  | cons B rest ih =>
    have hlt : j < (A.beside B).cols := Nat.lt_add_right _ hj
    rw [List.foldl_cons, ← get_beside_left (B := B) hk hj]
    exact ih hk hlt

/-- An entry of one of the matrices is found behind the columns of those before it. -/
theorem get_foldl_beside {A B : Mat K} {l : List (Mat K)} {i k j : Nat} (hi : l[i]? = some B)
    (hk : k < A.rows) (hj : j < B.cols) :
    (l.foldl beside A).get k (A.cols + ((l.map cols).take i).sum + j) = B.get k j := by
  induction l generalizing A i with
  | nil => cases hi
  | cons C rest ih =>
    cases i with
    | zero =>
      cases hi
      have hlt : A.cols + j < (A.beside B).cols := Nat.add_lt_add_left hj _
      rw [List.foldl_cons, ← get_beside_right hk hj]
      exact get_foldl_beside_of_lt hk hlt
    | succ i =>
      rw [List.map_cons, List.take_succ_cons, List.sum_cons, ← Nat.add_assoc]
      exact ih (A := A.beside C) hi hk

/-- A matrix's product with itself is a diagonal block of that of all of them side by side. -/
theorem gram_besideAll {rows : Nat} {l : List (Mat K)} {i : Nat} {B : Mat K} (hi : l[i]? = some B)
    (hB : B.rows = rows) :
    B.gram B = ofFn B.cols B.cols fun p q => ((besideAll rows l).gram (besideAll rows l)).get
      (((l.map cols).take i).sum + p) (((l.map cols).take i).sum + q) := by
  have hcols : (besideAll rows l).cols = (l.map cols).sum :=
    (cols_foldl_beside (zeros rows 0) l).trans (Nat.zero_add _)
  have hrows : (besideAll rows l).rows = rows := rows_foldl_beside (zeros rows 0) l
  have hwidth : (l.map cols)[i]? = some B.cols := by rw [List.getElem?_map, hi, Option.map_some]
  have hlt : ∀ {p : Nat}, p < B.cols → ((l.map cols).take i).sum + p < (besideAll rows l).cols := by
    intro p hp
    rw [hcols]
    refine BlockMatrix.total_take_add_lt (List.getElem?_eq_some_iff.mp hwidth).1 ?_
    rwa [List.getD_eq_getElem?_getD, hwidth]
  have hget : ∀ {k p : Nat}, k < rows → p < B.cols →
      (besideAll rows l).get k (((l.map cols).take i).sum + p) = B.get k p := by
    intro k p hk hp
    have hentry := get_foldl_beside (A := zeros rows 0) hi hk hp
    rwa [show (zeros rows 0 : Mat K).cols = 0 from rfl, Nat.zero_add] at hentry
  refine ofFn_congr fun p q hp hq => ?_
  rw [get_gram (hlt hp) (hlt hq), hrows, hB]
  refine Scalar.sum_congr fun k hk => ?_
  rw [hget hk hp, hget hk hq]

end Mat

namespace LinearFactor

/-! ### Products with all terms -/

section Terms
variable {value : Key × Mat K → Vec K} {terms : List (Key × Mat K)}

theorem get_sumProducts {e : Vec K} {k : Nat} (hk : k < e.size) :
    (sumProducts value e terms).get k =
      e.get k + (terms.map fun t => (t.2.mulVec (value t)).get k).sum := by
  induction terms generalizing e with
  | nil => exact (add_zero _).symm
  | cons t rest ih =>
    rw [List.map_cons, List.sum_cons, ← add_assoc, ← Vec.get_add hk]
    exact ih ((Vec.size_add e (t.2.mulVec (value t))).symm ▸ hk)

/-- Products with zeros add nothing. -/
theorem sumProducts_zeros (e : Vec K) : sumProducts (fun t => Vec.zeros t.2.cols) e terms = e := by
  refine Vec.ext_get (size_sumProducts ..) fun k hk => ?_
  have hk : k < e.size := size_sumProducts _ e terms ▸ hk
  have hzero : (terms.map fun t => (t.2.mulVec (Vec.zeros t.2.cols)).get k).sum = 0 := by
    refine List.sum_eq_zero fun a ha => ?_
    obtain ⟨t, -, rfl⟩ := List.mem_map.mp ha
    exact t.2.get_mulVec_zeros t.2.cols k
  rw [get_sumProducts hk, hzero, add_zero]

/-- An inner product with the sum of the products, term by term. -/
theorem dot_sumProducts {u e : Vec K} (he : e.size = u.size) (hrows : ∀ t ∈ terms, t.2.rows = u.size) :
    u.dot (sumProducts value e terms) =
      u.dot e + (terms.map fun t => (t.2.transposeMulVec u).dot (value t)).sum := by
  induction terms generalizing e with
  | nil => exact (add_zero _).symm
  | cons t rest ih =>
    have hstep := ih (e := e + t.2.mulVec (value t)) ((Vec.size_add ..).trans he)
      fun s hs => hrows s (List.mem_cons_of_mem t hs)
    rw [List.map_cons, List.sum_cons, ← add_assoc, ← Mat.dot_mulVec (hrows t (List.mem_cons_self ..)),
      ← Vec.dot_add he]
    exact hstep

/-- The matrices side by side take the vectors one after the other to the sum of the products. -/
theorem mulVec_foldl_beside {A : Mat K} {u : Vec K} (hu : u.size = A.cols)
    (h : ∀ t ∈ terms, t.2.rows = A.rows ∧ (value t).size = t.2.cols) :
    ((terms.map Prod.snd).foldl Mat.beside A).mulVec (u.append (Vec.concat (terms.map value))) =
      sumProducts value (A.mulVec u) terms := by
  induction terms generalizing A u with
  | nil => exact congrArg A.mulVec (Vec.append_nil u)
  | cons t rest ih =>
    obtain ⟨hrows, hcols⟩ := h t (List.mem_cons_self ..)
    have hu' : (u.append (value t)).size = (A.beside t.2).cols := by
      rw [Vec.size_append, hu, hcols]
      rfl
    have hstep := ih (A := A.beside t.2) hu' fun s hs => h s (List.mem_cons_of_mem t hs)
    rw [Mat.mulVec_beside hrows hu] at hstep
    rw [List.map_cons, List.map_cons, List.foldl_cons, Vec.concat_cons, ← Vec.append_assoc]
    exact hstep

theorem mulVec_besideAll {rows : Nat} (h : ∀ t ∈ terms, t.2.rows = rows ∧ (value t).size = t.2.cols) :
    (Mat.besideAll rows (terms.map Prod.snd)).mulVec (Vec.concat (terms.map value)) =
      sumProducts value (Vec.zeros rows) terms := by
  have hall := mulVec_foldl_beside (A := Mat.zeros rows 0) (u := Vec.concat []) rfl h
  rw [Vec.nil_append] at hall
  exact hall

end Terms

/-! ### One weight for all forms -/

section Weights
variable {f : LinearFactor K} (hone : OnePerRow f.model f.rows)
include hone

theorem dot_whitened (u v : Vec K) : (f.scaling.vec u).dot (f.scaling.vec v) =
    ∑ k ∈ Finset.range f.rows, u.get k * f.scaling.scale k * (v.get k * f.scaling.scale k) := by
  rw [Vec.dot, size_vec_scaling hone, Scalar.sum_eq_range]
  refine Finset.sum_congr rfl fun k hk => ?_
  have hk := Finset.mem_range.mp hk
  rw [get_vec_scaling hone u hk, get_vec_scaling hone v hk]

/-- Whitening both sides of an inner product is whitening one of them twice. -/
theorem dot_vec_scaling (u v : Vec K) :
    (f.scaling.vec u).dot (f.scaling.vec v) = (f.scaling.vec (f.scaling.vec u)).dot v := by
  rw [dot_whitened hone, Vec.dot, size_vec_scaling hone, Scalar.sum_eq_range]
  refine Finset.sum_congr rfl fun k hk => ?_
  have hk := Finset.mem_range.mp hk
  rw [get_vec_scaling hone _ hk, get_vec_scaling hone u hk]
  ring

theorem get_mulVec_mat {A : Mat K} (hA : A.rows = f.rows) (v : Vec K) {k : Nat} (hk : k < f.rows) :
    ((f.scaling.mat A).mulVec v).get k = (A.mulVec v).get k * f.scaling.scale k := by
  have hk' : k < f.scaling.size := (size_scaling hone).symm ▸ hk
  rw [RowScaling.get_mat_mulVec (hA.symm ▸ into_of_onePerRow hone) v hk', scaling, source_scaling f.model hk]

/-- The square of a whitened difference, as a quadratic function of the first vector. -/
theorem half_square_sub {m b : Vec K} (hm : m.size = f.rows) :
    (f.scaling.vec (m - b)).dot (f.scaling.vec (m - b)) / 2 =
      (f.scaling.vec b).dot (f.scaling.vec b) / 2 - (f.scaling.vec (f.scaling.vec b)).dot m +
        1 / 2 * (f.scaling.vec (f.scaling.vec m)).dot m := by
  have hsquare : (f.scaling.vec (m - b)).dot (f.scaling.vec (m - b)) =
      (f.scaling.vec b).dot (f.scaling.vec b) - 2 * (f.scaling.vec b).dot (f.scaling.vec m) +
        (f.scaling.vec m).dot (f.scaling.vec m) := by
    rw [dot_whitened hone, dot_whitened hone, dot_whitened hone, dot_whitened hone, Finset.mul_sum,
      ← Finset.sum_sub_distrib, ← Finset.sum_add_distrib]
    refine Finset.sum_congr rfl fun k hk => ?_
    rw [Vec.get_sub (hm.symm ▸ Finset.mem_range.mp hk)]
    ring
  rw [← dot_vec_scaling hone, ← dot_vec_scaling hone, hsquare]
  ring

end Weights

/-! ### The forms of a factor -/

/-- A container gives each key of a factor a vector of its width. -/
def Gives (f : LinearFactor K) (x : Container K) (v : Key → Vec K) : Prop :=
  Supplies x (fun t => v t.1) f.terms.entries

/-- The container of a vector for each key. -/
def pointOf (f : LinearFactor K) (v : Key → Vec K) : Container K := f.terms.mapValues fun key _ => .ofVec (v key)

omit [ExactScalar K] in
theorem gives_pointOf {f : LinearFactor K} {v : Key → Vec K} (h : ∀ e ∈ f.terms.entries, (v e.1).size = e.2.cols) :
    f.Gives (f.pointOf v) v := by
  intro e he
  refine ⟨?_, h e he⟩
  rw [pointOf, Table.find?_mapValues, Table.find?_of_mem he]
  rfl

def origin (f : LinearFactor K) : Container K := f.terms.mapValues fun _ A => .ofVec (Vec.zeros A.cols)

/-- The inner products of a table's vectors with the vectors of its keys, added up. -/
def pairing (t : Table Key (Vec K)) (v : Key → Vec K) : K := (t.entries.map fun e => e.2.dot (v e.1)).sum

/-- The first column of the `i`-th term in the matrices side by side. -/
def firstColumn (f : LinearFactor K) (i : Nat) : Nat := (f.widths.take i).sum

/-- The product `A x` with the vectors of the keys. -/
def applied (f : LinearFactor K) (v : Key → Vec K) : Vec K :=
  sumProducts (fun t => v t.1) (Vec.zeros f.rows) f.terms.entries

theorem size_applied (f : LinearFactor K) (v : Key → Vec K) : (f.applied v).size = f.rows :=
  (size_sumProducts _ _ _).trans (Vec.size_zeros _)

theorem sumProducts_neg_rhs (f : LinearFactor K) (value : Key × Mat K → Vec K) :
    sumProducts value (-f.rhs) f.terms.entries =
      sumProducts value (Vec.zeros f.rows) f.terms.entries - f.rhs := by
  have hsize : (sumProducts value (-f.rhs) f.terms.entries).size = f.rows :=
    (size_sumProducts ..).trans (Vec.size_neg f.rhs)
  have hsize' : (sumProducts value (Vec.zeros f.rows) f.terms.entries).size = f.rows :=
    (size_sumProducts ..).trans (Vec.size_zeros _)
  refine Vec.ext_get (hsize.trans ((Vec.size_sub _ _).trans hsize').symm) fun k hk => ?_
  have hk : k < f.rows := hsize ▸ hk
  have hzeros : k < (Vec.zeros f.rows : Vec K).size := (Vec.size_zeros (K := K) f.rows).symm ▸ hk
  rw [get_sumProducts ((Vec.size_neg f.rhs).symm ▸ hk), Vec.get_neg hk, Vec.get_sub (hsize'.symm ▸ hk),
    get_sumProducts hzeros, Vec.get_zeros]
  ring

theorem cols_scaled (f : LinearFactor K) (s : RowScaling K) :
    (f.terms.entries.map fun e => s.mat e.2).map Mat.cols = f.widths := by
  rw [List.map_map]
  rfl

/-- What transposed products pair to. -/
theorem pairing_transposed {f : LinearFactor K} {t : Table Key (Vec K)} {u : Vec K} (hu : u.size = f.rows)
    (ht : t.entries = f.terms.entries.map fun e => (e.1, e.2.transposeMulVec u)) (v : Key → Vec K) :
    pairing t v = u.dot (f.applied v) := by
  have hdot : u.dot (sumProducts (fun t => v t.1) (Vec.zeros f.rows) f.terms.entries) = _ :=
    dot_sumProducts ((Vec.size_zeros f.rows).trans hu.symm) fun e he => (f.rows_eq e he).trans hu.symm
  rw [Vec.dot_zeros, zero_add] at hdot
  rw [pairing, ht, List.map_map, applied, hdot]
  rfl

section Forms
variable {f : LinearFactor K} (hone : OnePerRow f.model f.rows)
include hone

theorem errorVector_eq {x : Container K} {v : Key → Vec K} (hx : f.Gives x v) :
    f.errorVector x = .ok (.ofVec (f.scaling.vec (f.applied v - f.rhs))) := by
  rw [errorVector_of_supplies hx, sumProducts_neg_rhs]
  exact whitenTensor_of_onePerRow hone ((Vec.size_sub _ _).trans (size_applied f v))

/-- The error, as a quadratic function of the products that a point supplies. -/
theorem error_of_supplies {x : Container K} {value : Key × Mat K → Vec K} {m : Vec K}
    (hx : Supplies x value f.terms.entries) (hm : sumProducts value (Vec.zeros f.rows) f.terms.entries = m) :
    f.error x = .ok ((f.scaling.vec f.rhs).dot (f.scaling.vec f.rhs) / 2 -
      (f.scaling.vec (f.scaling.vec f.rhs)).dot m + 1 / 2 * (f.scaling.vec (f.scaling.vec m)).dot m) := by
  have hsize : m.size = f.rows := hm ▸ (size_sumProducts ..).trans (Vec.size_zeros _)
  rw [error, errorVector_of_supplies hx, sumProducts_neg_rhs, hm,
    whitenTensor_of_onePerRow hone ((Vec.size_sub _ _).trans hsize), ← half_square_sub hone hsize]
  exact congrArg Except.ok (Scalar.half_mul _)

/-- At the origin the matrices do not count. -/
theorem error_origin :
    f.error f.origin = .ok ((f.scaling.vec f.rhs).dot (f.scaling.vec f.rhs) / 2) := by
  have hgives : Supplies f.origin (fun t => Vec.zeros t.2.cols) f.terms.entries := by
    intro t ht
    refine ⟨?_, Vec.size_zeros _⟩
    rw [origin, Table.find?_mapValues, Table.find?_of_mem ht]
    rfl
  rw [error, errorVector_of_supplies hgives, sumProducts_zeros,
    whitenTensor_of_onePerRow hone (Vec.size_neg f.rhs), RowScaling.vec_neg _ (into_of_onePerRow hone)]
  refine (congrArg Except.ok (Scalar.half_mul _)).trans ?_
  exact congrArg (fun a => Except.ok (a / 2)) (Vec.dot_neg_self _)

theorem gradientAtZero_eq_ok : ∃ g, f.gradientAtZero = .ok g ∧ g.keys = f.keys ∧
    ∀ v, pairing g v = -(f.scaling.vec (f.scaling.vec f.rhs)).dot (f.applied v) := by
  have hsize := size_vec_scaling hone (f.scaling.vec f.rhs)
  refine ⟨f.terms.mapValues fun _ A => -A.transposeMulVec (f.scaling.vec (f.scaling.vec f.rhs)), ?_,
    Table.keys_mapValues _ _, fun v => ?_⟩
  · rw [gradientAtZero, whitenTwice_of_onePerRow hone rfl]
    rfl
  · rw [← Vec.neg_dot]
    refine pairing_transposed ((Vec.size_neg _).trans hsize) (List.map_congr_left fun e he => ?_) v
    exact congrArg (Prod.mk e.1) (Mat.neg_transposeMulVec ((f.rows_eq e he).trans hsize.symm))

theorem multiplyHessianAdd_one {x : Container K} {v : Key → Vec K} (hx : f.Gives x v) :
    ∃ h : Table Key (Vec K), f.multiplyHessianAdd 1 x Table.empty = .ok (Solver.asContainer h) ∧
      h.keys = f.keys ∧
      pairing h v = (f.scaling.vec (f.scaling.vec (f.applied v))).dot (f.applied v) := by
  have hsize := size_vec_scaling hone (f.scaling.vec (f.applied v))
  refine ⟨f.terms.mapValues fun _ A => A.transposeMulVec (f.scaling.vec (f.scaling.vec (f.applied v))), ?_,
    Table.keys_mapValues _ _, pairing_transposed hsize rfl v⟩
  cases hne : f.isEmpty with
  | true =>
    have hnil : f.terms.entries = [] := List.isEmpty_iff.mp hne
    rw [multiplyHessianAdd, hne]
    refine congrArg Except.ok (Table.eq_of_entries ?_)
    simp only [Solver.asContainer, Table.mapValues, hnil]
    rfl
  | false =>
    obtain ⟨blocks, hblocks, hentries⟩ := addTransposed_eq (y := Table.empty)
      (fun e he => (f.rows_eq e he).trans hsize.symm) f.terms.distinct
    rw [multiplyHessianAdd_of_supplies hx hne, ← applied, whitenTwice_of_onePerRow hone (size_applied f v),
      ok_bind, Vec.scale_one, hblocks]
    refine congrArg Except.ok (Table.eq_of_entries (hentries.trans ?_))
    simp only [Solver.asContainer, Table.mapValues, List.map_map, Function.comp_def]
    rfl

/-! ### The matrices side by side -/

theorem jacobian_eq : f.jacobian =
    .ok (Mat.besideAll f.rows (f.terms.entries.map fun e => f.scaling.mat e.2), f.scaling.vec f.rhs) := by
  obtain ⟨t, hsystem, ht⟩ := whitenedSystem_of_onePerRow hone
  have hrows : (if f.isEmpty then f.rows else (f.scaling.vec f.rhs).size) = f.rows := by
    rw [size_vec_scaling hone, ite_self]
  rw [jacobian, hsystem]
  show Except.ok (Mat.besideAll (if f.isEmpty then f.rows else (f.scaling.vec f.rhs).size)
    (t.entries.map Prod.snd), f.scaling.vec f.rhs) = _
  rw [hrows, ht, List.map_map]
  rfl

/-- The whitened residual, by the matrices side by side. -/
theorem vec_applied_sub {v : Key → Vec K} (hv : ∀ e ∈ f.terms.entries, (v e.1).size = e.2.cols) :
    f.scaling.vec (f.applied v - f.rhs) =
      (Mat.besideAll f.rows (f.terms.entries.map fun e => f.scaling.mat e.2)).mulVec
        (Vec.concat (f.keys.map v)) - f.scaling.vec f.rhs := by
  -- The whitened matrices are terms of their own, with the same keys.
  have hbeside : _ = sumProducts (fun t => v t.1) (Vec.zeros f.rows)
      (f.terms.entries.map fun e => (e.1, f.scaling.mat e.2)) :=
    mulVec_besideAll fun t ht => by
      obtain ⟨e, he, rfl⟩ := List.mem_map.mp ht
      exact ⟨size_scaling hone, hv e he⟩
  simp only [List.map_map, Function.comp_def] at hbeside
  rw [keys, Table.keys, List.map_map]
  simp only [Function.comp_def]
  rw [hbeside]
  have hproducts := size_sumProducts (fun t => v t.1) (Vec.zeros f.rows)
    (f.terms.entries.map fun e => (e.1, f.scaling.mat e.2))
  rw [Vec.size_zeros] at hproducts
  refine Vec.ext_get ?_ fun k hk => ?_
  · rw [size_vec_scaling hone, Vec.size_sub, hproducts]
  · have hk : k < f.rows := size_vec_scaling hone (f.applied v - f.rhs) ▸ hk
    have hzeros : k < (Vec.zeros f.rows : Vec K).size := (Vec.size_zeros (K := K) f.rows).symm ▸ hk
    have hterms : ∀ e ∈ f.terms.entries, ((f.scaling.mat e.2).mulVec (v e.1)).get k =
        (e.2.mulVec (v e.1)).get k * f.scaling.scale k :=
      fun e he => get_mulVec_mat hone (f.rows_eq e he) (v e.1) hk
    rw [get_vec_scaling hone _ hk, Vec.get_sub ((size_applied f v).symm ▸ hk), Vec.get_sub (hproducts.symm ▸ hk),
      applied, get_sumProducts hzeros, get_sumProducts hzeros, get_vec_scaling hone _ hk, List.map_map]
    simp only [Function.comp_def]
    rw [List.map_congr_left hterms, List.sum_map_mul_right, Vec.get_zeros]
    ring

/-- The blocks of a key are the product of its whitened matrix with itself, and the diagonal of that. -/
theorem find_blocks {t : Table Key (Mat K)} (ht : t.entries = f.terms.entries.map fun e => (e.1, f.scaling.mat e.2))
    {i : Nat} {key : Key} {w : Nat} (hi : f.keys[i]? = some key) (hw : f.widths[i]? = some w) :
    ∃ M, (t.mapValues fun _ A => A.gram A).find? key = some M ∧
      M = Mat.ofFn w w (fun p q =>
        ((Mat.besideAll f.rows (f.terms.entries.map fun e => f.scaling.mat e.2)).gram
          (Mat.besideAll f.rows (f.terms.entries.map fun e => f.scaling.mat e.2))).get
            (f.firstColumn i + p) (f.firstColumn i + q)) ∧
      (t.mapValues fun _ A => A.columnSquares).find? key = some (Vec.ofFn w fun p => M.get p p) := by
  obtain ⟨e, he, rfl⟩ : ∃ e, f.terms.entries[i]? = some e ∧ e.1 = key := by
    rw [keys, Table.keys, List.getElem?_map] at hi
    exact Option.map_eq_some_iff.mp hi
  have hcols : e.2.cols = w := by
    rw [widths, termWidths, List.getElem?_map, he] at hw
    exact Option.some.inj hw
  have hterm : (f.terms.entries.map fun e => f.scaling.mat e.2)[i]? = some (f.scaling.mat e.2) := by
    rw [List.getElem?_map, he, Option.map_some]
  have hfind : t.find? e.1 = some (f.scaling.mat e.2) := by
    refine Table.find?_of_mem ?_
    rw [ht]
    exact List.mem_map_of_mem (List.mem_of_getElem? he)
  have hgram := Mat.gram_besideAll hterm (size_scaling hone)
  rw [cols_scaled] at hgram
  refine ⟨(f.scaling.mat e.2).gram (f.scaling.mat e.2), ?_, ?_, ?_⟩
  · rw [Table.find?_mapValues, hfind, Option.map_some]
  · rw [← hcols]
    exact hgram
  · rw [Table.find?_mapValues, hfind, Option.map_some, ← hcols]
    refine congrArg some (Vec.ofFn_congr fun p hp => ?_)
    rw [Mat.get_gram hp hp]

end Forms

/-- **The forms of a linear factor are of one quadratic function.** With one deviation for each row, all
forms are defined. At every point that gives the keys vectors of their widths, the error is that at the
origin, plus the gradient's products with the point, plus half the Hessian's; the residual is that of the
whitened matrices side by side. The diagonal is that of the diagonal blocks, and these are blocks of the
matrices' product with themselves. -/
theorem forms_agree {f : LinearFactor K} (hone : OnePerRow f.model f.rows) :
    ∃ A b g D B e₀, f.jacobian = .ok (A, b) ∧ f.gradientAtZero = .ok g ∧ f.hessianDiagonal = .ok D ∧
      f.hessianBlockDiagonal = .ok B ∧ f.error f.origin = .ok e₀ ∧
      A.rows = f.rows ∧ A.cols = f.widths.sum ∧ b.size = f.rows ∧
      g.keys = f.keys ∧ D.keys = f.keys ∧ B.keys = f.keys ∧
      (∀ x v, f.Gives x v → ∃ h : Table Key (Vec K),
        f.multiplyHessianAdd 1 x Table.empty = .ok (Solver.asContainer h) ∧ h.keys = f.keys ∧
        f.error x = .ok (e₀ + pairing g v + 1 / 2 * pairing h v) ∧
        f.errorVector x = .ok (.ofVec (A.mulVec (Vec.concat (f.keys.map v)) - b))) ∧
      ∀ i key w, f.keys[i]? = some key → f.widths[i]? = some w → ∃ M, B.find? key = some M ∧
        M = Mat.ofFn w w (fun p q => (A.gram A).get (f.firstColumn i + p) (f.firstColumn i + q)) ∧
        D.find? key = some (Vec.ofFn w fun p => M.get p p) := by
  obtain ⟨t, hsystem, ht⟩ := whitenedSystem_of_onePerRow hone
  obtain ⟨g, hg, hgkeys, hgpair⟩ := gradientAtZero_eq_ok hone
  have hkeys : t.keys = f.keys := by
    rw [Table.keys, ht, List.map_map]
    rfl
  refine ⟨_, _, g, t.mapValues fun _ A => A.columnSquares, t.mapValues fun _ A => A.gram A, _,
    jacobian_eq hone, hg, ?_, ?_, error_origin hone, Mat.rows_foldl_beside _ _, ?_, size_vec_scaling hone _,
    hgkeys, ?_, ?_, fun x v hx => ?_, fun i key w hi hw => ?_⟩
  · rw [hessianDiagonal, hsystem]
    rfl
  · rw [hessianBlockDiagonal, hsystem]
    rfl
  · rw [Mat.besideAll, Mat.cols_foldl_beside, cols_scaled]
    exact Nat.zero_add _
  · rw [Table.keys_mapValues, hkeys]
  · rw [Table.keys_mapValues, hkeys]
  · obtain ⟨h, hh, hhkeys, hhpair⟩ := multiplyHessianAdd_one hone hx
    refine ⟨h, hh, hhkeys, ?_, ?_⟩
    · rw [error_of_supplies hone hx rfl, ← applied, hgpair, hhpair, ← sub_eq_add_neg]
    · rw [errorVector_eq hone hx, vec_applied_sub hone fun e he => (hx e he).2]
  · exact find_blocks hone ht hi hw

def samplePoint (key : Key) : Vec ℚ := if key = .number 1 then Vec.ofFn 1 fun _ => 3 else Vec.ofFn 2 fun i => i + 1

/-- Two terms of different widths and unequal deviations, at a point. -/
theorem forms_agree_tiltedPair :
    OnePerRow (BlockMatrix.tiltedPair ℚ).model (BlockMatrix.tiltedPair ℚ).rows ∧
      ∃ g e₀, (BlockMatrix.tiltedPair ℚ).gradientAtZero = .ok g ∧
        (BlockMatrix.tiltedPair ℚ).error (BlockMatrix.tiltedPair ℚ).origin = .ok e₀ ∧
        ∃ h : Table Key (Vec ℚ),
          (BlockMatrix.tiltedPair ℚ).multiplyHessianAdd 1 ((BlockMatrix.tiltedPair ℚ).pointOf samplePoint)
              Table.empty = .ok (Solver.asContainer h) ∧
            (BlockMatrix.tiltedPair ℚ).error ((BlockMatrix.tiltedPair ℚ).pointOf samplePoint) =
              .ok (e₀ + pairing g samplePoint + 1 / 2 * pairing h samplePoint) := by
  have hone : OnePerRow (BlockMatrix.tiltedPair ℚ).model (BlockMatrix.tiltedPair ℚ).rows := by
    intro m hm
    cases hm
    rfl
  have hsizes : ∀ e ∈ (BlockMatrix.tiltedPair ℚ).terms.entries, (samplePoint e.1).size = e.2.cols := by
    decide +kernel
  obtain ⟨_, _, g, _, _, e₀, -, hg, -, -, he₀, -, -, -, -, -, -, hpoint, -⟩ := forms_agree hone
  obtain ⟨h, hh, -, herror, -⟩ := hpoint _ _ (gives_pointOf hsizes)
  exact ⟨hone, g, e₀, hg, he₀, h, hh, herror⟩

/-- **Without one deviation for each row there is an error without a gradient.** -/
theorem forms_twoDeviations :
    (Solver.twoDeviations ℚ).error ((Solver.twoDeviations ℚ).pointOf fun _ => Vec.ofFn 1 fun _ => 3) =
        .ok (5 / 2) ∧
      (Solver.twoDeviations ℚ).gradientAtZero = .error (.whitenRows 1 [2]) :=
  ⟨by decide +kernel, rfl⟩

end LinearFactor
end BundleAdjustment
