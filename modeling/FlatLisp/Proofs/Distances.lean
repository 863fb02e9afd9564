/-
FlatLisp.Proofs.Distances — where a distance is a silent exception.

The distance of two points is checked as every real answer is, but against the
differences of their coordinates. These have exceptions that the coordinates do not
have: the difference of finite coordinates is infinite where it is out of range, and
the difference of equal infinities is not a number. So a distance is a silent infinity
where a difference overflows (`Overflows`), it is silently not a number where equal
infinities meet and nothing infinite hides it (`Cancels`), and it is accounted for by
the coordinates everywhere else (`dist_accountedFor_iff`).

How the proof goes. In the running length of a vector infinity wins over not-a-number
and not-a-number over numbers. So a length is not a number exactly if a coordinate is
not, with a finite length in front of it and nothing infinite behind it
(`isNaN_vectorLength_iff`); and two lists of coordinates are cut where their
differences are.
-/
import FlatLisp.Proofs.CheckedReals
import FlatLisp.Proofs.FloatDifferences

namespace FlatLisp

variable {H : Type}

/-! ## Hypotenuses -/

namespace Binary64

theorem isInf_infinity : infinity.isInf = true :=
  rfl

variable {x y : Float}

theorem hypotenuse_of_isInf (h : x.isInf = true ∨ y.isInf = true) :
    hypotenuse x y = infinity := by
  rw [hypotenuse, if_pos (Bool.or_eq_true_iff.mpr h)]

theorem hypotenuse_of_isNaN (hx : x.isInf = false) (hy : y.isInf = false)
    (h : x.isNaN = true ∨ y.isNaN = true) : hypotenuse x y = nan := by
  rw [hypotenuse, hx, hy, Bool.false_or, if_neg Bool.false_ne_true,
    if_pos (Bool.or_eq_true_iff.mpr h)]

theorem isNaN_hypotenuse (hx : x.isNaN = false) (hy : y.isNaN = false) :
    (hypotenuse x y).isNaN = false := by
  rw [hypotenuse, hx, hy]
  split
  · rfl
  · exact isNaN_nearest _ _ _

end Binary64

namespace Operation
open Binary64

/-! ## Lengths -/

theorem foldl_hypotenuse_infinity : ∀ ds : List Float,
    ds.foldl hypotenuse infinity = infinity
  | [] => rfl
  | d :: ds => by
    rw [List.foldl_cons, hypotenuse_of_isInf (.inl isInf_infinity), foldl_hypotenuse_infinity ds]

/-- An infinite coordinate makes every length infinite. -/
theorem foldl_hypotenuse_of_mem {ds : List Float} {d : Float} (hd : d ∈ ds)
    (hinf : d.isInf = true) (running : Float) : ds.foldl hypotenuse running = infinity := by
  obtain ⟨front, back, rfl⟩ := List.append_of_mem hd
  rw [List.foldl_append, List.foldl_cons, hypotenuse_of_isInf (.inr hinf),
    foldl_hypotenuse_infinity]

theorem foldl_hypotenuse_nan : ∀ {ds : List Float}, (∀ d ∈ ds, d.isInf = false) →
    ds.foldl hypotenuse nan = nan
  | [], _ => rfl
  | d :: ds, h => by
    rw [List.foldl_cons, hypotenuse_of_isNaN rfl (h d List.mem_cons_self) (.inl rfl)]
    exact foldl_hypotenuse_nan fun d' hd' => h d' (List.mem_cons_of_mem d hd')

theorem isNaN_foldl_hypotenuse : ∀ {ds : List Float} {running : Float}, running.isNaN = false →
    nan ∉ ds → (ds.foldl hypotenuse running).isNaN = false
  | [], _, hrunning, _ => hrunning
  | d :: ds, running, hrunning, h => by
    have hd : d.isNaN = false := by
      rw [← Bool.not_eq_true, isNaN_iff_eq_nan]
      rintro rfl
      exact h List.mem_cons_self
    rw [List.foldl_cons]
    exact isNaN_foldl_hypotenuse (isNaN_hypotenuse hrunning hd)
      fun hmem => h (List.mem_cons_of_mem d hmem)

theorem vectorLength_append_cons (front back : List Float) (d : Float) :
    vectorLength (front ++ d :: back)
      = back.foldl hypotenuse (hypotenuse (vectorLength front) d) := by
  rw [vectorLength, vectorLengthBy, List.foldl_append, List.foldl_cons]
  rfl

/-- A length is not a number exactly if a coordinate is not, unless the length of those
in front of it or one of those behind it is infinite. -/
theorem isNaN_vectorLength_iff {ds : List Float} :
    (vectorLength ds).isNaN = true ↔ ∃ front back, ds = front ++ nan :: back ∧
      (vectorLength front).isFinite = true ∧ ∀ d ∈ back, d.isInf = false := by
  constructor
  · intro h
    have hmem : nan ∈ ds := by
      by_contra hnone
      rw [vectorLength, vectorLengthBy, isNaN_foldl_hypotenuse rfl hnone] at h
      cases h
    have hnotInf : (vectorLength ds).isInf = false := by
      rw [isNaN_iff_eq_nan] at h
      rw [h]
      rfl
    -- cut at the first coordinate that is not a number
    obtain ⟨front, back, rfl, hfirst⟩ := List.eq_append_cons_of_mem hmem
    rw [vectorLength_append_cons] at hnotInf
    have hfront : (vectorLength front).isNaN = false := isNaN_foldl_hypotenuse rfl hfirst
    have hfront' : (vectorLength front).isInf = false := by
      refine Bool.eq_false_iff.mpr fun hinf => Bool.eq_false_iff.mp hnotInf ?_
      rw [hypotenuse_of_isInf (.inl hinf), foldl_hypotenuse_infinity]
      rfl
    refine ⟨front, back, rfl, isFinite_iff_isNaN_isInf.mpr ⟨hfront, hfront'⟩, fun d hd => ?_⟩
    refine Bool.eq_false_iff.mpr fun hinf => Bool.eq_false_iff.mp hnotInf ?_
    rw [foldl_hypotenuse_of_mem hd hinf]
    rfl
  · rintro ⟨front, back, rfl, hfront, hback⟩
    have hfront' := (isFinite_iff_isNaN_isInf.mp hfront).2
    rw [vectorLength_append_cons, hypotenuse_of_isNaN hfront' rfl (.inr rfl),
      foldl_hypotenuse_nan hback]
    rfl

/-! ## Differences of coordinates -/

/-- The differences of the coordinates of two points. -/
def differences (p q : List Float) : List Float :=
  List.zipWith (· - ·) p q

theorem mem_differences {p q : List Float} {d : Float} :
    d ∈ differences p q ↔ ∃ c ∈ p.zip q, c.1 - c.2 = d := by
  rw [differences, ← List.map_uncurry_zip_eq_zipWith, List.mem_map]
  rfl

/-- The coordinates are finite, but a difference of two of them is out of range. -/
structure Overflows (p q : List Float) : Prop where
  isFinite : ∀ x ∈ p ++ q, x.isFinite = true
  outOfRange : ∃ c ∈ p.zip q, (overflowBound : ℚ) ≤ |exactValue c.1 - exactValue c.2|

/-- The coordinates are numbers, but the same infinity stands at one place of both
points, with a finite distance of what is in front of it and no infinite difference
behind it. -/
structure Cancels (p q : List Float) : Prop where
  isNumber : ∀ x ∈ p ++ q, x.isNaN = false
  meets : ∃ p₁ p₂ q₁ q₂ x, p = p₁ ++ x :: p₂ ∧ q = q₁ ++ x :: q₂ ∧ p₁.length = q₁.length ∧
    x.isInf = true ∧ (vectorLength (differences p₁ q₁)).isFinite = true ∧
      ∀ d ∈ differences p₂ q₂, d.isInf = false

variable {p q : List Float}

theorem mem_coordinates_of_zip {c : Float × Float} (h : c ∈ p.zip q) :
    c.1 ∈ p ++ q ∧ c.2 ∈ p ++ q :=
  ⟨List.mem_append_left q (List.of_mem_zip h).1, List.mem_append_right p (List.of_mem_zip h).2⟩

/-- Finite coordinates have differences. -/
theorem isNaN_of_mem_differences (h : ∀ x ∈ p ++ q, x.isFinite = true) {d : Float}
    (hd : d ∈ differences p q) : d.isNaN = false := by
  obtain ⟨c, hc, rfl⟩ := mem_differences.mp hd
  obtain ⟨hleft, hright⟩ := mem_coordinates_of_zip hc
  rw [← Bool.not_eq_true, isNaN_sub_iff]
  rintro (hnan | hnan | ⟨hinf, -⟩)
  · exact Bool.eq_false_iff.mp (isNaN_of_isFinite (h _ hleft)) hnan
  · exact Bool.eq_false_iff.mp (isNaN_of_isFinite (h _ hright)) hnan
  · exact Bool.eq_false_iff.mp (isFinite_iff_isNaN_isInf.mp (h _ hleft)).2 hinf

theorem overflows_iff (h : ∀ x ∈ p ++ q, x.isFinite = true) :
    Overflows p q ↔ ∃ d ∈ differences p q, d.isInf = true := by
  have hinf : ∀ c ∈ p.zip q, (c.1 - c.2).isInf = true
      ↔ (overflowBound : ℚ) ≤ |exactValue c.1 - exactValue c.2| := fun c hc =>
    isInf_sub_iff (h _ (mem_coordinates_of_zip hc).1) (h _ (mem_coordinates_of_zip hc).2)
  constructor
  · rintro ⟨-, c, hc, hrange⟩
    exact ⟨c.1 - c.2, mem_differences.mpr ⟨c, hc, rfl⟩, (hinf c hc).mpr hrange⟩
  · rintro ⟨d, hd, hd'⟩
    obtain ⟨c, hc, rfl⟩ := mem_differences.mp hd
    exact ⟨h, c, hc, (hinf c hc).mp hd'⟩

/-- The length of the differences of numbers is not a number exactly if equal infinities
meet. -/
theorem cancels_iff (h : ∀ x ∈ p ++ q, x.isNaN = false) :
    Cancels p q ↔ (vectorLength (differences p q)).isNaN = true := by
  rw [isNaN_vectorLength_iff]
  constructor
  · rintro ⟨-, p₁, p₂, q₁, q₂, x, rfl, rfl, hlength, hinf, hfront, hback⟩
    have hnan : x - x = nan := isNaN_iff_eq_nan.mp (isNaN_sub_iff.mpr (.inr (.inr ⟨hinf, rfl⟩)))
    refine ⟨differences p₁ q₁, differences p₂ q₂, ?_, hfront, hback⟩
    rw [differences, List.zipWith_append hlength, List.zipWith_cons_cons, hnan]
    rfl
  · rintro ⟨front, back, hcut, hfront, hback⟩
    obtain ⟨p₁, p', q₁, q', hlength, rfl, rfl, rfl, hrest⟩ := List.zipWith_eq_append_iff.mp hcut
    obtain ⟨x, p₂, y, q₂, rfl, rfl, hnan, rfl⟩ := List.zipWith_eq_cons_iff.mp hrest.symm
    have hx : x.isNaN = false := h x (by simp)
    have hy : y.isNaN = false := h y (by simp)
    rw [eq_comm, ← isNaN_iff_eq_nan, isNaN_sub_iff, hx, hy] at hnan
    obtain ⟨hinf, rfl⟩ := (hnan.resolve_left Bool.false_ne_true).resolve_left Bool.false_ne_true
    exact ⟨h, p₁, p₂, q₁, q₂, x, rfl, rfl, hlength, hinf, hfront, hback⟩

/-! ## Distances -/

/-- What the check says of the length of the differences. -/
abbrev checkedDistance (p q : List Float) : Except Error (Value H) :=
  checkedReal "dist" (differences p q) (vectorLength (differences p q))

theorem checkedDistance_of_overflows (h : Overflows p q) :
    (checkedDistance p q : Except Error (Value H)) = .ok (.float infinity) := by
  obtain ⟨d, hd, hinf⟩ := (overflows_iff h.isFinite).mp h
  have hlength : vectorLength (differences p q) = infinity := foldl_hypotenuse_of_mem hd hinf 0.0
  rw [checkedReal_eq_ok_iff, hlength]
  refine ⟨rfl, fun hnan => ?_, fun _ => ⟨d, hd, ?_⟩⟩
  · cases hnan
  · rw [← Bool.not_eq_true, isFinite_iff_isNaN_isInf, hinf]
    simp

/-- A length that is not a number always passes the check. -/
theorem checkedDistance_of_isNaN (h : (vectorLength (differences p q)).isNaN = true) :
    (checkedDistance p q : Except Error (Value H)) = .ok (.float nan) := by
  obtain ⟨front, back, hcut, -⟩ := isNaN_vectorLength_iff.mp h
  rw [checkedReal_eq_ok_iff, isNaN_iff_eq_nan.mp h]
  refine ⟨rfl, fun _ => ⟨nan, ?_, rfl⟩, fun hinf => ?_⟩
  · rw [hcut]
    exact List.mem_append_right front List.mem_cons_self
  · cases hinf

theorem accountedFor_checkedDistance_iff :
    AccountedFor (p ++ q) (checkedDistance p q : Except Error (Value H))
      ↔ ¬ Overflows p q ∧ ¬ Cancels p q := by
  constructor
  · intro h
    constructor
    · intro hoverflows
      obtain ⟨x, hx, hfinite⟩ := (h _ (checkedDistance_of_overflows hoverflows)).2 rfl
      exact Bool.eq_false_iff.mp hfinite (hoverflows.isFinite x hx)
    · intro hcancels
      obtain ⟨x, hx, hnan⟩ :=
        (h _ (checkedDistance_of_isNaN ((cancels_iff hcancels.isNumber).mp hcancels))).1 rfl
      exact Bool.eq_false_iff.mp (hcancels.isNumber x hx) hnan
  · rintro ⟨hoverflows, hcancels⟩ r hr
    obtain ⟨rfl, -, hinf⟩ := checkedReal_eq_ok_iff.mp hr
    constructor
    · intro hnan
      by_contra hnone
      have hnumber : ∀ x ∈ p ++ q, x.isNaN = false := fun x hx =>
        Bool.eq_false_iff.mpr fun hx' => hnone ⟨x, hx, hx'⟩
      exact hcancels ((cancels_iff hnumber).mpr hnan)
    · intro hlength
      by_contra hnone
      have hfinite : ∀ x ∈ p ++ q, x.isFinite = true := fun x hx =>
        Bool.not_eq_false _ |>.mp fun hx' => hnone ⟨x, hx, hx'⟩
      obtain ⟨d, hd, hd'⟩ := hinf hlength
      refine hoverflows ((overflows_iff hfinite).mpr ⟨d, hd, ?_⟩)
      rw [← Bool.not_eq_true, isFinite_iff_isNaN_isInf, isNaN_of_mem_differences hfinite hd] at hd'
      simpa using hd'

theorem checkedDistance_eq_error_iff {cause : Error} :
    (checkedDistance p q : Except Error (Value H)) = .error cause
      ↔ cause = .fault (.range "dist") ∧ (vectorLength (differences p q)).isInf = true ∧
        ∀ d ∈ differences p q, d.isFinite = true := by
  cases hnan : (vectorLength (differences p q)).isNaN with
  | true =>
    rw [checkedDistance_of_isNaN hnan, isNaN_iff_eq_nan.mp hnan]
    constructor
    · rintro ⟨⟩
    · rintro ⟨-, hinf, -⟩
      cases hinf
  | false =>
    unfold checkedDistance checkedReal
    rw [hnan, Bool.false_and, if_neg Bool.false_ne_true]
    split
    case isTrue h =>
      rw [Bool.and_eq_true, List.all_eq_true] at h
      constructor
      · rintro ⟨⟩
        exact ⟨rfl, h⟩
      · rintro ⟨rfl, -⟩
        rfl
    case isFalse h =>
      rw [Bool.and_eq_true, List.all_eq_true] at h
      constructor
      · rintro ⟨⟩
      · rintro ⟨-, hall⟩
        exact absurd hall h

/-- The value of a point. -/
def point (p : List Number) : Value H :=
  .list (p.map .number)

/-- The coordinates of a point as doubles. -/
def coordinates (p : List Number) : List Float :=
  p.map Number.toFloat

theorem dist_eval {p q : List Number} (h : p.length = q.length) :
    (dist.eval [point p, point q] : Except Error (Value H))
      = checkedDistance (coordinates p) (coordinates q) := by
  have hlist : ∀ ns : List Number,
      floatListArg "dist" (point ns : Value H) = .ok (coordinates ns) :=
    mapM_floatArg_number "dist"
  have hlength : ((coordinates p).length != (coordinates q).length) = false := by
    rw [coordinates, coordinates, List.length_map, List.length_map, h, bne_self_eq_false]
  show (do
    let x ← floatListArg "dist" (point p : Value H)
    let y ← floatListArg "dist" (point q : Value H)
    if x.length != y.length then .error (.fault .dimensionMismatch) else checkedDistance x y) = _
  rw [hlist, hlist, ok_bind, ok_bind, hlength, if_neg Bool.false_ne_true]

/-- A distance is accounted for by the coordinates unless a difference of finite
coordinates overflows, where it is a silent infinity, or equal infinities cancel, where it
is silently not a number. The only error of points of equal dimension is a length that is
out of range although no difference is. -/
theorem dist_accountedFor_iff (p q : List Number) (h : p.length = q.length) :
    (AccountedFor (coordinates p ++ coordinates q)
        (dist.eval [point p, point q] : Except Error (Value H))
      ↔ ¬ Overflows (coordinates p) (coordinates q) ∧
        ¬ Cancels (coordinates p) (coordinates q)) ∧
    (Overflows (coordinates p) (coordinates q) →
      (dist.eval [point p, point q] : Except Error (Value H)) = .ok (.float infinity)) ∧
    (Cancels (coordinates p) (coordinates q) →
      (dist.eval [point p, point q] : Except Error (Value H)) = .ok (.float nan)) ∧
    ∀ cause, (dist.eval [point p, point q] : Except Error (Value H)) = .error cause
      ↔ cause = .fault (.range "dist") ∧
        (vectorLength (differences (coordinates p) (coordinates q))).isInf = true ∧
        ∀ d ∈ differences (coordinates p) (coordinates q), d.isFinite = true := by
  rw [dist_eval h]
  exact ⟨accountedFor_checkedDistance_iff, checkedDistance_of_overflows,
    fun hcancels => checkedDistance_of_isNaN ((cancels_iff hcancels.isNumber).mp hcancels),
    fun _ => checkedDistance_eq_error_iff⟩

/-- Infinity takes itself away at the second place, with the distance `2` in front of
it. -/
theorem dist_of_equal_infinities :
    Cancels [3.0, infinity] [1.0, infinity] ∧
    (dist.eval [point [.float 3.0, .float infinity], point [.float 1.0, .float infinity]] :
      Except Error (Value Empty)) = .ok (.float nan) := by
  have hcancels : Cancels [3.0, infinity] [1.0, infinity] := {
    isNumber := by decide
    meets := ⟨[3.0], [], [1.0], [], infinity, rfl, rfl, by decide, rfl, by decide +kernel,
      List.forall_mem_nil _⟩ }
  exact ⟨hcancels, (dist_accountedFor_iff [.float 3.0, .float infinity]
    [.float 1.0, .float infinity] (by decide)).2.2.1 hcancels⟩

/-- The difference of `1e308` and its negative is no double, and the infinity that stands
for it passes the check. -/
theorem dist_overflow_is_silent :
    (∀ x ∈ [1e308, -1e308], Float.isFinite x = true) ∧
    (dist.eval [.list [.float 1e308], .list [.float (-1e308)]] : Except Error (Value Empty))
      = .ok (.float infinity) ∧
    ¬ AccountedFor [1e308, -1e308]
      (dist.eval [.list [.float 1e308], .list [.float (-1e308)]] :
        Except Error (Value Empty)) := by
  have hfinite : ∀ x ∈ [1e308, -1e308], Float.isFinite x = true := by decide +kernel
  have hdifference : (1e308 : Float) - -1e308 = infinity := by decide +kernel
  have heval : ∀ x y : Float, (dist.eval [.list [.float x], .list [.float y]] :
      Except Error (Value Empty)) = checkedReal "dist" [x - y] (vectorLength [x - y]) :=
    fun _ _ => rfl
  have hanswer : (dist.eval [.list [.float 1e308], .list [.float (-1e308)]] :
      Except Error (Value Empty)) = .ok (.float infinity) := by
    rw [heval, hdifference]
    rfl
  refine ⟨hfinite, hanswer, fun h => ?_⟩
  obtain ⟨x, hx, hnotFinite⟩ := (h _ hanswer).2 rfl
  exact Bool.eq_false_iff.mp hnotFinite (hfinite x hx)

end Operation

end FlatLisp
