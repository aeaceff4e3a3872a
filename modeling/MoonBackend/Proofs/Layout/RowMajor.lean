import MoonBackend.Proofs.Code.Execution
import MoonBackend.Proofs.Layout.Frames

/-!
# Row-major positions

Where the elements of an array lie, which grows downwards from its base: the last index moves by one
element, every other one by what is left of the array behind it. Some indices and then the others lead
to the same place as all of them at once, and different indices to bytes that have nothing in common.
-/

namespace MoonBackend

/-! ### Positions -/

def elements (ds : List Int64) : ℤ := (ds.map Int64.toInt).prod

/-- The position that indices lead to among the parts of an array, from that of the rows before:
each index follows its dimension times the position so far. -/
def rowMajor (n : ℤ) : List Int64 → List Int32 → ℤ
  | d :: ds, v :: vs => rowMajor (n * d.toInt + v.toInt) ds vs
  | _, _ => n

/-- There is a dimension for every index, and the index is below it. -/
def InRange : List Int64 → List Int32 → Prop
  | _, [] => True
  | [], _ :: _ => False
  | d :: ds, v :: vs => (0 ≤ v.toInt ∧ v.toInt < d.toInt) ∧ InRange ds vs

@[simp] theorem elements_nil : elements [] = 1 := rfl

@[simp]
theorem elements_cons (d : Int64) (ds : List Int64) :
    elements (d :: ds) = d.toInt * elements ds := by simp [elements]

theorem elements_append (ds es : List Int64) :
    elements (ds ++ es) = elements ds * elements es := by simp [elements]

@[simp]
theorem rowMajor_nil (n : ℤ) (ds : List Int64) : rowMajor n ds [] = n := by cases ds <;> rfl

@[simp]
theorem rowMajor_cons (n : ℤ) (d : Int64) (ds : List Int64) (v : Int32) (vs : List Int32) :
    rowMajor n (d :: ds) (v :: vs) = rowMajor (n * d.toInt + v.toInt) ds vs := rfl

theorem rowMajor_append (n : ℤ) {ds : List Int64} {vs : List Int32} (ws : List Int32)
    (h : vs.length ≤ ds.length) :
    rowMajor n ds (vs ++ ws) = rowMajor (rowMajor n ds vs) (ds.drop vs.length) ws := by
  induction vs generalizing n ds with
  | nil => simp
  | cons v vs ih =>
    cases ds with
    | nil => simp at h
    | cons d ds => exact ih (n * d.toInt + v.toInt) (by simpa using h)

theorem rowMajor_eq (n : ℤ) (ds : List Int64) (vs : List Int32) :
    rowMajor n ds vs = n * elements (ds.take vs.length) + rowMajor 0 ds vs := by
  induction vs generalizing n ds with
  | nil => simp
  | cons v vs ih =>
    cases ds with
    | nil => simp [rowMajor]
    | cons d ds =>
      simp only [rowMajor_cons, List.length_cons, List.take_succ_cons, elements_cons]
      rw [ih (n * d.toInt + v.toInt), ih (0 * d.toInt + v.toInt)]
      ring

namespace InRange

variable {ds : List Int64} {vs ws : List Int32}

theorem rowMajor_bounds (h : InRange ds vs) :
    0 ≤ rowMajor 0 ds vs ∧ rowMajor 0 ds vs < elements (ds.take vs.length) := by
  induction vs generalizing ds with
  | nil => simp
  | cons v vs ih =>
    cases ds with
    | nil => exact h.elim
    | cons d ds =>
      obtain ⟨⟨hv, hd⟩, hrest⟩ := h
      obtain ⟨hlow, hhigh⟩ := ih hrest
      simp only [rowMajor_cons, List.length_cons, List.take_succ_cons, elements_cons]
      rw [rowMajor_eq]
      have hbelow : (0 * d.toInt + v.toInt) * elements (ds.take vs.length)
          ≤ (d.toInt - 1) * elements (ds.take vs.length) :=
        Int.mul_le_mul_of_nonneg_right (by omega) (by omega)
      have hnonneg : 0 ≤ (0 * d.toInt + v.toInt) * elements (ds.take vs.length) :=
        Int.mul_nonneg (by omega) (by omega)
      rw [Int.sub_mul] at hbelow
      omega

theorem eq_of_rowMajor_eq (hv : InRange ds vs) (hw : InRange ds ws) (hlen : vs.length = ws.length)
    (h : rowMajor 0 ds vs = rowMajor 0 ds ws) : vs = ws := by
  induction vs generalizing ds ws with
  | nil => exact (List.length_eq_zero_iff.1 hlen.symm).symm
  | cons v vs ih =>
    cases ds with
    | nil => exact hv.elim
    | cons d ds =>
      cases ws with
      | nil => simp at hlen
      | cons w ws =>
        simp only [List.length_cons, Nat.add_right_cancel_iff] at hlen
        have hv' := rowMajor_bounds hv.2
        have hw' := rowMajor_bounds hw.2
        simp only [rowMajor_cons] at h
        rw [rowMajor_eq, rowMajor_eq (0 * d.toInt + w.toInt), ← hlen] at h
        rw [← hlen] at hw'
        have hpos : elements (ds.take vs.length) ≠ 0 := by omega
        have hdiv := congrArg (· / elements (ds.take vs.length)) h
        simp only [Int.add_comm (_ * elements _), Int.add_mul_ediv_right _ _ hpos,
          Int.ediv_eq_zero_of_lt hv'.1 hv'.2, Int.ediv_eq_zero_of_lt hw'.1 hw'.2] at hdiv
        obtain rfl : v = w := Int32.toInt_inj.1 (by omega)
        rw [ih hv.2 hw.2 hlen (by omega)]

end InRange

/-! ### Sizes -/

theorem Ty.toInt32_scale {t : Ty} {ds : List Int64} {n m : Int64} (h : t.scale ds n = .ok m) :
    m.toInt32 = n.toInt32 * Int32.ofInt (elements ds) := by
  induction ds generalizing n with
  | nil =>
    cases h
    simp
  | cons d ds ih =>
    unfold Ty.scale at h
    split at h
    · rw [ih h, Int64.toInt32_mul, elements_cons, Int32.ofInt_mul, Machine.toInt32_eq_ofInt d,
        Int32.mul_assoc]
    · cases h

theorem wordOfSize_sizeOfWord (n : Int64) : wordOfSize (sizeOfWord n) = n := by
  unfold sizeOfWord
  split
  · rename_i h
    exact (by simpa using h : n = -1).symm
  · rfl

/-- The size of a type, also where it is unknown or wraps around. -/
theorem Table.toInt32_sizeOf {t : Table} {sizes : Sizes} {type : Ty} {n : Int64} {s : Option Int64}
    (hn : t.elementSize sizes type = .ok (some n)) (h : t.sizeOf sizes type = .ok s) :
    (wordOfSize s).toInt32 = n.toInt32 * Int32.ofInt (elements type.dims) := by
  obtain ⟨k, hk, h⟩ := except_bind_eq_ok.1 h
  cases hn.symm.trans hk
  obtain ⟨m, hm, h⟩ := except_bind_eq_ok.1 h
  cases h
  rw [wordOfSize_sizeOfWord, Ty.toInt32_scale hm]

theorem Table.exists_elementSize {t : Table} {sizes : Sizes} {type : Ty} {size : Int64}
    (h : t.sizeOf sizes type = .ok (some size)) :
    ∃ n, t.elementSize sizes type = .ok (some n) := by
  obtain ⟨n, hn, h⟩ := except_bind_eq_ok.1 h
  cases n with
  | none => cases h
  | some n => exact ⟨n, hn⟩

theorem Table.toInt32_sizeOf_drop {t : Table} {sizes : Sizes} {type : Ty} {k : ℕ} {n : Int64}
    {s s' : Option Int64} (hn : t.elementSize sizes type = .ok (some n))
    (h : t.sizeOf sizes type = .ok s)
    (hd : t.sizeOf sizes ⟨type.base, type.dims.drop k⟩ = .ok s') :
    (wordOfSize s).toInt32
      = (wordOfSize s').toInt32 * Int32.ofInt (elements (type.dims.take k)) := by
  have hpart : t.elementSize sizes ⟨type.base, type.dims.drop k⟩ = .ok (some n) :=
    elementSize_of_base hn rfl
  rw [toInt32_sizeOf hn h, toInt32_sizeOf hpart hd, Int32.mul_assoc, ← Int32.ofInt_mul,
    Int.mul_comm, ← elements_append, List.take_append_drop]

theorem Table.Takes.parts {t : Table} {sizes : Sizes} {type : Ty} {total : ℤ}
    (h : t.Takes sizes type total) (k : ℕ) :
    ∃ size, t.sizeOf sizes ⟨type.base, type.dims.drop k⟩ = .ok (some size) ∧ 0 ≤ size.toInt
      ∧ total = size.toInt * elements (type.dims.take k) := by
  obtain ⟨m, hm, -⟩ := h.drop k
  obtain ⟨size, hsize, rfl⟩ := hm.sizeOf
  refine ⟨size, hsize, hm.nonneg, ?_⟩
  obtain ⟨n, hn, -, -, rfl, -⟩ := h
  obtain ⟨n', hn', -, -, heq, -⟩ := hm
  have hpart : t.elementSize sizes ⟨type.base, type.dims.drop k⟩ = .ok (some n) :=
    elementSize_of_base hn rfl
  cases hpart.symm.trans hn'
  have hsplit := elements_append (type.dims.take k) (type.dims.drop k)
  rw [List.take_append_drop] at hsplit
  change n.toInt * elements type.dims = _
  rw [hsplit, heq, Int.mul_assoc, Int.mul_comm (elements _)]
  rfl

/-! ### Addresses -/

/-- The address of the part that indices lead to, each of the given size, in an array at an
address. -/
def elementAddress (b : Int32) (size : Int64) (ds : List Int64) (vs : List Int32) : Int32 :=
  b - Int32.ofInt (size.toInt * rowMajor 0 ds vs)

/-- The bytes of a value at an address: those of the word there, and on from it downwards. -/
def bytesAt (word : Int64) (b : Int32) (n : ℤ) : Set Int32 :=
  {x | ∃ i, 0 ≤ i ∧ i < n ∧ x = b + (word.toInt32 - 1) - Int32.ofInt i}

theorem elementAddress_append (b : Int32) {size size' : Int64} {ds : List Int64}
    (vs ws : List Int32) (h : vs.length ≤ ds.length)
    (hsize : size'.toInt32
      = size.toInt32 * Int32.ofInt (elements ((ds.drop vs.length).take ws.length))) :
    elementAddress (elementAddress b size' ds vs) size (ds.drop vs.length) ws
      = elementAddress b size ds (vs ++ ws) := by
  unfold elementAddress
  rw [rowMajor_append 0 ws h, rowMajor_eq (rowMajor 0 ds vs)]
  simp only [Int32.ofInt_mul, Int32.ofInt_add, ← Machine.toInt32_eq_ofInt] at hsize ⊢
  rw [hsize]
  grind

section

variable {size : Int64} {ds : List Int64} {vs ws : List Int32}

theorem InRange.offset_lt (h : InRange ds vs) (hsize : 0 ≤ size.toInt) {i : ℤ} (h0 : 0 ≤ i)
    (hi : i < size.toInt) : 0 ≤ size.toInt * rowMajor 0 ds vs + i
      ∧ size.toInt * rowMajor 0 ds vs + i < size.toInt * elements (ds.take vs.length) := by
  obtain ⟨hlow, hhigh⟩ := h.rowMajor_bounds
  have hnonneg : 0 ≤ size.toInt * rowMajor 0 ds vs := Int.mul_nonneg hsize hlow
  have hnext : size.toInt * (rowMajor 0 ds vs + 1) ≤ size.toInt * elements (ds.take vs.length) :=
    Int.mul_le_mul_of_nonneg_left hhigh hsize
  rw [Int.mul_add, Int.mul_one] at hnext
  omega

theorem mem_bytesAt_elementAddress {word : Int64} {b x : Int32} :
    x ∈ bytesAt word (elementAddress b size ds vs) size.toInt ↔ ∃ i, 0 ≤ i ∧ i < size.toInt
      ∧ x = b + (word.toInt32 - 1) - Int32.ofInt (size.toInt * rowMajor 0 ds vs + i) := by
  unfold bytesAt elementAddress
  refine exists_congr fun i => and_congr_right fun _ => and_congr_right fun _ => ?_
  rw [Int32.ofInt_add]
  grind

theorem bytesAt_subset (word : Int64) (b : Int32) (h : InRange ds vs) (hsize : 0 ≤ size.toInt) :
    bytesAt word (elementAddress b size ds vs) size.toInt
      ⊆ bytesAt word b (size.toInt * elements (ds.take vs.length)) := by
  intro x hx
  obtain ⟨i, h0, hi, rfl⟩ := mem_bytesAt_elementAddress.1 hx
  obtain ⟨hlow, hhigh⟩ := h.offset_lt hsize h0 hi
  exact ⟨_, hlow, hhigh, rfl⟩

theorem bytesAt_disjoint (word : Int64) (b : Int32) (hv : InRange ds vs) (hw : InRange ds ws)
    (hlen : vs.length = ws.length) (hsize : 0 ≤ size.toInt)
    (hsmall : size.toInt * elements (ds.take vs.length) < 2 ^ 31) (hne : vs ≠ ws) :
    Disjoint (bytesAt word (elementAddress b size ds vs) size.toInt)
      (bytesAt word (elementAddress b size ds ws) size.toInt) := by
  refine Set.disjoint_left.2 fun x hx hy => hne ?_
  obtain ⟨i, hi0, hi, rfl⟩ := mem_bytesAt_elementAddress.1 hx
  obtain ⟨j, hj0, hj, heq⟩ := mem_bytesAt_elementAddress.1 hy
  obtain ⟨hilow, hihigh⟩ := hv.offset_lt hsize hi0 hi
  obtain ⟨hjlow, hjhigh⟩ := hw.offset_lt hsize hj0 hj
  rw [← hlen] at hjhigh
  -- offsets below `2 ^ 31` are words that do not wrap around
  have hwords : Int32.ofInt (size.toInt * rowMajor 0 ds vs + i)
      = Int32.ofInt (size.toInt * rowMajor 0 ds ws + j) := by grind
  have hoff := congrArg Int32.toInt hwords
  rw [Int32.toInt_ofInt_of_le (by omega) (by omega),
    Int32.toInt_ofInt_of_le (by omega) (by omega)] at hoff
  have hdiv := congrArg (· / size.toInt) hoff
  have hpos : size.toInt ≠ 0 := by omega
  simp only [Int.add_comm (size.toInt * _), Int.add_mul_ediv_left _ _ hpos,
    Int.ediv_eq_zero_of_lt hi0 hi, Int.ediv_eq_zero_of_lt hj0 hj] at hdiv
  exact hv.eq_of_rowMajor_eq hw hlen (by omega)

end

/-- In an array of less than `2 ^ 31` bytes the parts that as many indices lead to lie inside the array
and apart from each other. -/
theorem Table.Takes.apart {t : Table} {sizes : Sizes} {type : Ty} {total : ℤ}
    (h : t.Takes sizes type total) (hsmall : total < 2 ^ 31) (word : Int64) (b : Int32)
    {vs : List Int32} (hv : InRange type.dims vs) :
    ∃ size, t.sizeOf sizes ⟨type.base, type.dims.drop vs.length⟩ = .ok (some size)
      ∧ bytesAt word (elementAddress b size type.dims vs) size.toInt ⊆ bytesAt word b total
      ∧ ∀ ws, InRange type.dims ws → ws.length = vs.length → ws ≠ vs →
        Disjoint (bytesAt word (elementAddress b size type.dims vs) size.toInt)
          (bytesAt word (elementAddress b size type.dims ws) size.toInt) := by
  obtain ⟨size, hsize, hnonneg, rfl⟩ := h.parts vs.length
  exact ⟨size, hsize, bytesAt_subset word b hv hnonneg, fun ws hw hlen hne =>
    bytesAt_disjoint word b hv hw hlen.symm hnonneg hsmall hne.symm⟩

end MoonBackend
