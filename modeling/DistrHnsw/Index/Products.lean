import Mathlib.Tactic.Ring
import DistrHnsw.Index.Distance
import DistrHnsw.Index.Search
import DistrHnsw.Wal.Entry

/-!
# The integer dot product

Sixteen lanes of 32-bit sums, their total, and the rest of the vectors.  Over vectors as long as a
partition admits, no sum on the way leaves 32 bits, so the result is the sum of the products.
-/

namespace DistrHnsw

namespace Index

namespace Explicit

/-! ## Arithmetic in 32 bits -/

/-- A result that has to fit 32 bits. -/
def fitI32 (message : String) (n : ℤ) : Checked Int32 :=
  if -2 ^ 31 ≤ n ∧ n < 2 ^ 31 then .ok (.ofInt n) else .error (.assertion message)

def addI32 (a b : Int32) : Checked Int32 := fitI32 "attempt to add with overflow" (a.toInt + b.toInt)

def mulI32 (a b : Int32) : Checked Int32 :=
  fitI32 "attempt to multiply with overflow" (a.toInt * b.toInt)

theorem returns_fitI32 {message : String} {n : ℤ} (h : n.natAbs ≤ 2 ^ 30) :
    Returns (fitI32 message n) fun s => s.toInt = n := by
  unfold fitI32
  rw [if_pos (by omega)]
  exact returns_ok (Int32.toInt_ofInt_of_le (by omega) (by omega))

/-! ## The kernel -/

def intLanes : ℕ := 16

/-- One product added to a sum. -/
def addProduct (sum : Int32) (x y : Int8) : Checked Int32 := do
  let product ← mulI32 x.toInt32 y.toInt32
  addI32 sum product

/-- A chunk of both vectors added to the lanes. -/
def addLanes (acc : List Int32) (x y : List Int8) : Checked (List Int32) :=
  (acc.zip (x.zip y)).mapM fun (sum, x, y) => addProduct sum x y

/-- Integer dot product with `i32` accumulation, every sum and product checked. -/
def dotI8 (a b : List Int8) : Checked Int32 := do
  let acc ← ((chunks intLanes a).zip (chunks intLanes b)).foldlM
    (fun acc (x, y) => addLanes acc x y) (List.replicate intLanes 0)
  let sum ← acc.foldlM addI32 0
  ((remainder intLanes a).zip (remainder intLanes b)).foldlM (fun sum (x, y) => addProduct sum x y) sum

end Explicit

/-! ## The exact sum -/

/-- The sum of the products. -/
def products (a b : List Int8) : ℤ := (a.zipWith (fun x y => x.toInt * y.toInt) b).sum

theorem natAbs_product_le (x y : Int8) : (x.toInt * y.toInt).natAbs ≤ 2 ^ 14 := by
  have hx : x.toInt.natAbs ≤ 2 ^ 7 := by
    have hlow := x.le_toInt
    have hhigh := x.toInt_lt
    omega
  have hy : y.toInt.natAbs ≤ 2 ^ 7 := by
    have hlow := y.le_toInt
    have hhigh := y.toInt_lt
    omega
  calc (x.toInt * y.toInt).natAbs = x.toInt.natAbs * y.toInt.natAbs := Int.natAbs_mul _ _
    _ ≤ 2 ^ 7 * 2 ^ 7 := Nat.mul_le_mul hx hy
    _ = 2 ^ 14 := rfl

theorem natAbs_sum_le {xs : List ℤ} {k : ℕ} (h : ∀ x ∈ xs, x.natAbs ≤ k) :
    xs.sum.natAbs ≤ xs.length * k := by
  induction xs with
  | nil => simp
  | cons x xs ih =>
    have hx := h x List.mem_cons_self
    have hxs := ih fun y hy => h y (List.mem_cons_of_mem _ hy)
    rw [List.sum_cons, List.length_cons, Nat.succ_mul]
    exact (Int.natAbs_add_le _ _).trans (by omega)

theorem natAbs_products_le (a b : List Int8) :
    (products a b).natAbs ≤ min a.length b.length * 2 ^ 14 := by
  have hsum : (products a b).natAbs ≤ _ := natAbs_sum_le (k := 2 ^ 14) fun p hp => by
    obtain ⟨i, hi, rfl⟩ := List.mem_iff_getElem.1 hp
    rw [List.getElem_zipWith]
    exact natAbs_product_le _ _
  rwa [List.length_zipWith] at hsum

namespace Explicit

/-! ## Every sum fits -/

theorem returns_addProduct {sum : Int32} (x y : Int8) (h : sum.toInt.natAbs + 2 ^ 14 ≤ 2 ^ 30) :
    Returns (addProduct sum x y) fun s => s.toInt = sum.toInt + x.toInt * y.toInt := by
  have hproduct := natAbs_product_le x y
  unfold addProduct mulI32
  rw [Int8.toInt_toInt32, Int8.toInt_toInt32]
  refine (returns_fitI32 (by omega)).bind fun product hp => ?_
  unfold addI32
  rw [hp]
  exact returns_fitI32 (by omega)

/-- The sum of the lanes. -/
def total (acc : List Int32) : ℤ := (acc.map Int32.toInt).sum

/-- Lanes after so many chunks. -/
structure Lanes (count : ℕ) (sum : ℤ) (acc : List Int32) : Prop where
  total : total acc = sum
  bounded (s : Int32) : s ∈ acc → s.toInt.natAbs ≤ count * 2 ^ 14

theorem returns_addLanes {acc : List Int32} {count : ℕ} {sum : ℤ} (h : Lanes count sum acc)
    (hcount : count < 2 ^ 16) {x y : List Int8} (hx : x.length = acc.length)
    (hy : y.length = acc.length) : Returns (addLanes acc x y) fun acc' =>
      acc'.length = acc.length ∧ Lanes (count + 1) (sum + products x y) acc' := by
  unfold addLanes
  induction acc generalizing x y sum with
  | nil =>
    obtain rfl := List.eq_nil_of_length_eq_zero hx
    refine returns_pure ⟨rfl, ?_, nofun⟩
    rw [← h.total]
    rfl
  | cons s acc ih =>
    match x, y with
    | x :: xs, y :: ys =>
      have hs := h.bounded s List.mem_cons_self
      rw [List.zip_cons_cons, List.zip_cons_cons, List.mapM_cons]
      refine (returns_addProduct x y (by omega)).bind fun s' hs' => ?_
      have hrest : Lanes count (total acc) acc :=
        ⟨rfl, fun s hs => h.bounded s (List.mem_cons_of_mem _ hs)⟩
      refine (ih hrest (Nat.succ.inj hx) (Nat.succ.inj hy)).bind fun acc' hacc' => returns_pure ?_
      obtain ⟨hlen, htotal, hbounded⟩ := hacc'
      refine ⟨congrArg Nat.succ hlen, ?_, ?_⟩
      · have hsum := h.total
        simp only [total, List.map_cons, List.sum_cons] at hsum htotal ⊢
        rw [htotal, hs', ← hsum]
        simp only [products, List.zipWith_cons_cons, List.sum_cons]
        ring
      · intro t ht
        rcases List.mem_cons.1 ht with rfl | ht
        · have hproduct := natAbs_product_le x y
          rw [hs']
          omega
        · exact hbounded t ht

/-- The loop over the chunks. -/
theorem returns_chunkLoop {pairs : List (List Int8 × List Int8)}
    (hpairs : ∀ pair ∈ pairs, pair.1.length = intLanes ∧ pair.2.length = intLanes)
    (hcount : pairs.length ≤ 2 ^ 16) :
    Returns (pairs.foldlM (fun acc (x, y) => addLanes acc x y) (List.replicate intLanes 0)) fun acc =>
      acc.length = intLanes ∧
        Lanes pairs.length (pairs.map fun pair => products pair.1 pair.2).sum acc := by
  refine returns_foldlM_done (m := Checked) (J := fun (done : List (List Int8 × List Int8)) (acc : List Int32) =>
    acc.length = intLanes ∧
      Lanes done.length (done.map fun pair => products pair.1 pair.2).sum acc) ?_ ?_
  · rintro done ⟨x, y⟩ rest hsplit acc ⟨hlen, hlanes⟩
    obtain ⟨hx, hy⟩ := hpairs (x, y) (by rw [hsplit]; simp)
    have hdone : done.length < 2 ^ 16 := by
      rw [hsplit, List.length_append, List.length_cons] at hcount
      omega
    refine (returns_addLanes hlanes hdone (hx.trans hlen.symm) (hy.trans hlen.symm)).mono ?_
    rintro acc' ⟨hlen', hlanes'⟩
    refine ⟨hlen'.trans hlen, ?_⟩
    simpa using hlanes'
  · refine ⟨List.length_replicate, by simp [total], fun s hs => ?_⟩
    rw [List.eq_of_mem_replicate hs]
    exact Nat.zero_le _

/-- The total of the lanes. -/
theorem returns_laneTotal {acc : List Int32} {count : ℕ} {sum : ℤ} (h : Lanes count sum acc)
    (hlen : acc.length * count ≤ 2 ^ 16) :
    Returns (acc.foldlM addI32 0) fun s => s.toInt = sum := by
  have hbound (front : List Int32) (hfront : front.Sublist acc) : (total front).natAbs ≤ 2 ^ 30 := by
    have hsum := @natAbs_sum_le (front.map Int32.toInt) (count * 2 ^ 14) fun n hn => by
      obtain ⟨s, hs, rfl⟩ := List.mem_map.1 hn
      exact h.bounded s (hfront.subset hs)
    rw [List.length_map] at hsum
    have hle := hfront.length_le
    calc (total front).natAbs ≤ front.length * (count * 2 ^ 14) := hsum
      _ ≤ acc.length * (count * 2 ^ 14) := Nat.mul_le_mul_right _ hle
      _ = acc.length * count * 2 ^ 14 := (Nat.mul_assoc _ _ _).symm
      _ ≤ 2 ^ 16 * 2 ^ 14 := Nat.mul_le_mul_right _ hlen
      _ = 2 ^ 30 := rfl
  rw [← h.total]
  refine returns_foldlM_done (J := fun done (s : Int32) => s.toInt = total done) ?_ rfl
  intro done s rest hsplit sum hsum
  have htotal : total (done ++ [s]) = sum.toInt + s.toInt := by simp [total, hsum]
  unfold addI32
  rw [← htotal]
  refine (returns_fitI32 (hbound _ ?_))
  rw [hsplit, List.append_cons done s rest]
  exact List.sublist_append_left _ _

/-- The loop over the rest. -/
theorem returns_restLoop {a b : List Int8} {sum : Int32}
    (h : sum.toInt.natAbs + min a.length b.length * 2 ^ 14 ≤ 2 ^ 30) :
    Returns ((a.zip b).foldlM (fun sum (x, y) => addProduct sum x y) sum) fun s =>
      s.toInt = sum.toInt + products a b := by
  have hproducts : products a b = ((a.zip b).map fun (x, y) => x.toInt * y.toInt).sum := by
    rw [products, List.zip_eq_zipWith, List.map_zipWith]
  rw [hproducts]
  refine returns_foldlM_done (J := fun (done : List (Int8 × Int8)) (s : Int32) =>
    s.toInt = sum.toInt + (done.map fun (x, y) => x.toInt * y.toInt).sum) ?_ (by simp)
  rintro done ⟨x, y⟩ rest hsplit s hs
  have hdone := @natAbs_sum_le (done.map fun (x, y) => x.toInt * y.toInt) (2 ^ 14)
    fun n hn => by
      obtain ⟨⟨x, y⟩, -, rfl⟩ := List.mem_map.1 hn
      exact natAbs_product_le x y
  have hlen := congrArg List.length hsplit
  rw [List.length_zip, List.length_append, List.length_cons] at hlen
  rw [List.length_map] at hdone
  refine (returns_addProduct x y ?_).mono fun s' hs' => ?_
  · rw [hs]
    have hadd := Int.natAbs_add_le sum.toInt (done.map fun (x, y) => x.toInt * y.toInt).sum
    omega
  · rw [hs', hs]
    simp [add_assoc]

/-! ## The vectors in chunks -/

theorem chunks_zip {a b : List Int8} (hlen : a.length = b.length) (n : ℕ) :
    (chunks n a).zip (chunks n b) = (List.range (a.length / n)).map fun i =>
      ((a.drop (i * n)).take n, (b.drop (i * n)).take n) := by
  unfold chunks
  rw [← hlen, List.zip_map']

theorem products_split (a b : List Int8) (i n : ℕ) :
    products (a.drop i) (b.drop i) = products ((a.drop i).take n) ((b.drop i).take n) +
      products (a.drop (i + n)) (b.drop (i + n)) := by
  unfold products
  rw [← List.drop_drop, ← List.drop_drop, ← List.take_zipWith, ← List.drop_zipWith,
    ← List.drop_zipWith, ← List.drop_zipWith, ← List.sum_append, List.take_append_drop]

/-- The chunks and the rest have the products of the whole. -/
theorem products_chunks (a b : List Int8) (n count : ℕ) :
    ((List.range count).map fun i =>
      products ((a.drop (i * n)).take n) ((b.drop (i * n)).take n)).sum +
        products (a.drop (count * n)) (b.drop (count * n)) = products a b := by
  induction count with
  | zero => simp
  | succ count ih =>
    rw [List.range_succ, List.map_append, List.sum_append, List.map_singleton, List.sum_singleton,
      ← ih, products_split a b (count * n) n, Nat.succ_mul]
    ring

/-- No sum on the way overflows, and the result is exact. -/
theorem returns_dotI8 {a b : List Int8} (hlen : a.length = b.length)
    (hle : a.length ≤ Wal.maxDims) : Returns (dotI8 a b) fun s => s.toInt = products a b := by
  have hmax : a.length ≤ 2 ^ 16 := hle
  have hcount : ((chunks intLanes a).zip (chunks intLanes b)).length = a.length / intLanes := by
    rw [chunks_zip hlen, List.length_map, List.length_range]
  have hsum : (((chunks intLanes a).zip (chunks intLanes b)).map fun pair =>
      products pair.1 pair.2).sum + products (remainder intLanes a) (remainder intLanes b) =
        products a b := by
    rw [chunks_zip hlen, List.map_map, remainder, remainder, ← hlen]
    exact products_chunks a b intLanes (a.length / intLanes)
  have hfull : a.length / intLanes * intLanes ≤ a.length := Nat.div_mul_le_self _ _
  have hwidth (pair : List Int8 × List Int8)
      (hpair : pair ∈ (chunks intLanes a).zip (chunks intLanes b)) :
      pair.1.length = intLanes ∧ pair.2.length = intLanes := by
    rw [chunks_zip hlen] at hpair
    obtain ⟨i, hi, rfl⟩ := List.mem_map.1 hpair
    have hlt := List.mem_range.1 hi
    have hinside : (i + 1) * intLanes ≤ a.length := (Nat.mul_le_mul_right _ hlt).trans hfull
    rw [Nat.succ_mul] at hinside
    simp only [List.length_take, List.length_drop, ← hlen]
    omega
  unfold dotI8
  refine (returns_chunkLoop hwidth ?_).bind fun acc hacc => ?_
  · rw [hcount]
    exact (Nat.div_le_self _ _).trans hmax
  obtain ⟨hlanes, hacc⟩ := hacc
  refine (returns_laneTotal hacc ?_).bind fun sum hs => ?_
  · rw [hlanes, hcount, Nat.mul_comm]
    exact hfull.trans hmax
  refine (returns_restLoop ?_).mono fun s hrest => by rw [hrest, hs, hsum]
  -- the chunks and the rest together are as long as the vectors
  have hchunks := @natAbs_sum_le (((chunks intLanes a).zip (chunks intLanes b)).map fun pair =>
      products pair.1 pair.2) (intLanes * 2 ^ 14) fun n hn => by
    obtain ⟨pair, hpair, rfl⟩ := List.mem_map.1 hn
    obtain ⟨hx, hy⟩ := hwidth pair hpair
    have hle := natAbs_products_le pair.1 pair.2
    rwa [hx, hy, Nat.min_self] at hle
  rw [List.length_map, hcount, ← Nat.mul_assoc] at hchunks
  have hrest : min (remainder intLanes a).length (remainder intLanes b).length =
      a.length - a.length / intLanes * intLanes := by
    rw [remainder, remainder, List.length_drop, List.length_drop, ← hlen, Nat.min_self]
  rw [hs, hrest]
  omega

end Explicit

/-! ## Without checks -/

theorem toInt_foldl_add (xs : List Int32) (s : Int32) :
    (xs.foldl (· + ·) s).toInt = (s.toInt + Explicit.total xs).bmod (2 ^ 32) := by
  induction xs generalizing s with
  | nil => simp [Explicit.total]
  | cons x xs ih =>
    rw [List.foldl_cons, ih, Int32.toInt_add, Int.bmod_add_bmod]
    simp [Explicit.total, add_assoc]

theorem total_products (a b : List Int8) :
    Explicit.total (a.zipWith (fun x y => x.toInt32 * y.toInt32) b) = products a b := by
  unfold Explicit.total products
  rw [List.map_zipWith]
  congr 2
  funext x y
  have hproduct := natAbs_product_le x y
  rw [Int32.toInt_mul, Int8.toInt_toInt32, Int8.toInt_toInt32]
  exact Int.bmod_eq_of_le (by omega) (by omega)

/-- The dot product of the kernel is exact: no product, no sum of a lane, no sum of the lanes and no
sum behind them leaves 32 bits, and the result is the sum of the products. -/
theorem dotI8_exact {a b : List Int8} (hlen : a.length = b.length) (hle : a.length ≤ Wal.maxDims) :
    Explicit.dotI8 a b = .ok (dotI8 a b) ∧ (dotI8 a b).toInt = products a b := by
  have hmax : a.length ≤ 2 ^ 16 := hle
  have hbound := natAbs_products_le a b
  rw [← hlen, Nat.min_self] at hbound
  have hwrapped : (dotI8 a b).toInt = products a b := by
    unfold dotI8
    rw [toInt_foldl_add, total_products, Int32.toInt_zero, zero_add]
    exact Int.bmod_eq_of_le (by omega) (by omega)
  obtain ⟨s, hok, hs⟩ := Explicit.returns_dotI8 hlen hle
  rw [hok, Int32.toInt_inj.1 (hs.trans hwrapped.symm)]
  exact ⟨rfl, hwrapped⟩

theorem dotI8_exact_least : Explicit.dotI8 (List.replicate 20 (-128)) (List.replicate 20 (-128)) =
    .ok (dotI8 (List.replicate 20 (-128)) (List.replicate 20 (-128))) ∧
      (dotI8 (List.replicate 20 (-128)) (List.replicate 20 (-128))).toInt =
        products (List.replicate 20 (-128)) (List.replicate 20 (-128)) :=
  dotI8_exact rfl (by decide)

end Index

end DistrHnsw
