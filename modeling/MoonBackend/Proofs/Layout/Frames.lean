import MoonBackend.Proofs.Layout.Inheritance

/-!
# Inside frames and objects

As long as no size wraps around, the slots of a function lie inside its frame, and the members and
bases that are found in an object lie inside the object. A type takes its element times its
dimensions, and a part of an array takes no more than the array.
-/

namespace MoonBackend

open Layout

/-- The bytes that a value of the type takes, which no word wraps around. -/
def Table.Takes (t : Table) (sizes : Sizes) (type : Ty) (n : ℤ) : Prop :=
  ∃ k, t.elementSize sizes type = .ok (some k) ∧ 0 ≤ k.toInt ∧ (∀ d ∈ type.dims, 0 < d)
    ∧ n = k.toInt * (type.dims.map Int64.toInt).prod ∧ n < 2 ^ 63

/-! ### Types -/

theorem Table.elementSize_of_base {t : Table} {sizes : Sizes} {type type' : Ty} {n : Option Int64}
    (h : t.elementSize sizes type = .ok n) (hb : type'.base = type.base) :
    t.elementSize sizes type' = .ok n := by
  unfold Table.elementSize at h ⊢
  rw [hb]
  cases hbase : type.base with
  | void =>
    rw [hbase] at h
    cases h
  | _ =>
    rw [hbase] at h
    exact h

namespace Table.Takes

variable {t : Table} {sizes : Sizes} {type : Ty} {m n : ℤ}

theorem nonneg (h : t.Takes sizes type n) : 0 ≤ n := by
  obtain ⟨k, -, hk, hd, rfl, -⟩ := h
  rw [prod_dimensions hd]
  exact Int.mul_nonneg hk (Int.natCast_nonneg _)

theorem lt (h : t.Takes sizes type n) : n < 2 ^ 63 := by
  obtain ⟨k, -, -, -, -, hlt⟩ := h
  exact hlt

theorem unique (h : t.Takes sizes type n) (h' : t.Takes sizes type m) : n = m := by
  obtain ⟨k, hk, -, -, rfl, -⟩ := h
  obtain ⟨k', hk', -, -, rfl, -⟩ := h'
  cases hk.symm.trans hk'
  rfl

theorem sizeOf (h : t.Takes sizes type n) :
    ∃ w, t.sizeOf sizes type = .ok (some w) ∧ w.toInt = n := by
  obtain ⟨k, hk, hnn, hd, hn, hlt⟩ := h
  have hnat : k.toInt = (k.toInt.toNat : ℤ) := by omega
  rw [prod_dimensions hd, hnat, ← Int.natCast_mul] at hn
  obtain ⟨w, hw, hwn⟩ := scale_exact (t := type) hd hnat (by omega)
  refine ⟨w, ?_, by rw [hwn, hn]⟩
  unfold Table.sizeOf
  refine except_bind_eq_ok.2 ⟨some k, hk, except_bind_eq_ok.2 ⟨w, hw, ?_⟩⟩
  rw [sizeOfWord_exact hwn]
  rfl

theorem drop (h : t.Takes sizes type n) (i : ℕ) :
    ∃ m, t.Takes sizes ⟨type.base, type.dims.drop i⟩ m ∧ m ≤ n := by
  obtain ⟨k, hk, hnn, hd, rfl, hlt⟩ := h
  have hd' : ∀ d ∈ type.dims.drop i, 0 < d := fun d hm => hd d (List.mem_of_mem_drop hm)
  have hprod : dimensions type.dims = dimensions (type.dims.take i) * dimensions (type.dims.drop i) := by
    unfold dimensions
    rw [← List.prod_append, ← List.map_append, List.take_append_drop]
  have hpos := dimensions_pos fun d hm => hd d (List.mem_of_mem_take (i := i) hm)
  have hle : dimensions (type.dims.drop i) ≤ dimensions type.dims := by
    rw [hprod]
    exact Nat.le_mul_of_pos_left _ hpos
  rw [prod_dimensions hd] at hlt ⊢
  have hmul : k.toInt * (dimensions (type.dims.drop i) : ℤ) ≤ k.toInt * (dimensions type.dims : ℤ) :=
    Int.mul_le_mul_of_nonneg_left (by omega) hnn
  refine ⟨k.toInt * (dimensions (type.dims.drop i) : ℤ), ⟨k, elementSize_of_base hk rfl, hnn, hd', ?_, by omega⟩, hmul⟩
  rw [prod_dimensions hd']

end Table.Takes

namespace LaidOut

variable {p : Program} {sizes : Sizes} {t : Table} (h : LaidOut p sizes t)

include h

/-! ### Scopes whose sizes do not wrap around -/

theorem exactEntries {s : Scope} (hs : s ∈ t.classes ++ t.functions) : ExactEntries p sizes s :=
  fun e he n hn => h.exact.entries s hs e he n hn

theorem entry_le {limit : ℕ} (hclass : ∀ d name n, p.classBytes sizes d name = some n → n ≤ limit)
    (hframe : ∀ d, ∀ s ∈ t.functions, ∀ n, s.bytes sizes (p.classBytes sizes d) = some n → n ≤ limit) :
    ∀ d, ∀ s ∈ t.classes ++ t.functions, ∀ e ∈ s.storage, ∀ n,
      e.bytes sizes (p.classBytes sizes d) = some n → n ≤ limit := by
  intro d s hs e he n hn
  obtain ⟨d', m, hm, hle⟩ : ∃ d' m, s.bytes sizes (p.classBytes sizes d') = some m ∧ m ≤ limit := by
    obtain ⟨below, own, hf⟩ := h.finished s hs
    rcases List.mem_append.1 hs with hc | hc
    · obtain ⟨w, v, -, -, d', hbytes⟩ := classBytes_of_sums h.declares h.exact hc rfl
        (h.exactEntries hs) hf.bases hf.entries
      have hle := hclass d' s.name _ hbytes
      obtain ⟨c, -, hdec, hc?⟩ := h.declares.of_mem hc
      cases d' with
      | zero => cases hbytes
      | succ d' =>
        obtain ⟨c', below', own', hc', -, hown', heq⟩ := Program.classBytes_succ.1 hbytes
        cases hc?.symm.trans hc'
        exact ⟨d', own', by rw [hdec.bytes]; exact hown', by omega⟩
    · obtain ⟨d', m, hm, -⟩ := carries_frame (h.exactEntries hs) hf.entries
      exact ⟨d', m, hm, hframe d' s hc m hm⟩
  obtain ⟨k, hk⟩ := (total_eq_some.1 hm).1 e he
  obtain rfl := Program.classBytes_unique (f := fun classes (e : Entry) => e.bytes sizes classes)
    (fun _ _ hr => Entry.bytes_refines hr) hn hk
  exact (le_of_total hm he hk).trans hle

theorem entry_lt {s : Scope} (hs : s ∈ t.classes ++ t.functions) {e : Entry} (he : e ∈ s.storage) :
    bytesOf e.size < 2 ^ 63 := by
  obtain ⟨n, hn⟩ := Option.ne_none_iff_exists'.1 (h.sized s hs e he)
  rw [hn]
  exact n.toInt_lt

variable (hfit : Fits p sizes t)

include hfit

theorem scopesSized : ScopesSized t := by
  intro s hs
  obtain ⟨below, own, hf⟩ := h.finished s hs
  rw [hf.size _ (sizeOfWord_scope h.declares h.exact hfit hs rfl (h.exactEntries hs) hf.bases
    hf.entries)]
  nofun

theorem addsUp (hp : sizes.Proper) : AddsUp sizes t :=
  Layout.addsUp hp h.declares h.exact hfit h.sized (h.scopesSized hfit) h.sizable

/-- The size of a frame is the sum of its slots, in whole numbers. -/
theorem frame_sum (hp : sizes.Proper) {s : Scope} (hs : s ∈ t.functions) :
    s.size ≠ none ∧ bytesOf s.size = bytesIn s.entries ∧ 0 ≤ bytesOf s.size := by
  obtain ⟨hsize, hsum⟩ := (h.addsUp hfit hp).frames s hs
  refine ⟨hsize, hsum, ?_⟩
  have hnn := bytesIn_nonneg fun e he hk =>
    h.entry_nonneg (List.mem_append_right t.classes hs) he hk
  rw [hsum]
  exact hnn

theorem frame_inside (hp : sizes.Proper) {s : Scope} (hs : s ∈ t.functions) {e : Entry}
    (he : e ∈ s.entries) (hk : e.kind.isStorage = true) :
    ∃ o, e.offset = some o ∧ o.toInt ≤ 0 ∧ -bytesOf s.size ≤ o.toInt - bytesOf e.size := by
  obtain ⟨hsize, hsum, -⟩ := h.frame_sum hfit hp hs
  obtain ⟨n, hn⟩ := Option.ne_none_iff_exists'.1 hsize
  have hlt : bytesOf s.size < 2 ^ 63 := by
    rw [hn]
    exact n.toInt_lt
  have hbounds := (tiled_bounds (h.functions s hs) (fun e he hk =>
    h.entry_nonneg (List.mem_append_right t.classes hs) he hk)
    (by rw [← hsum, Int64.toInt_zero]; omega)).1
  obtain ⟨o, ho, hhigh, hlow⟩ := hbounds e he hk
  rw [← hsum, Int64.toInt_zero, Int.zero_sub] at hlow
  exact ⟨o, ho, hhigh, hlow⟩

omit hfit

/-! ### Objects -/

variable (hbound : p.Bounded sizes)

include hbound

/-- A member lies inside the object, also one that takes no space. -/
theorem member_bounds {D m : String} (hD : ∃ k ∈ p.classes, k.name = D) {off : Int64} {e : Located}
    (hf : t.memberOffset D m = .ok (off, e)) :
    off.toInt ≤ 0 ∧ -bytesOf (t.classSize D) ≤ off.toInt - bytesOf e.entry.size := by
  obtain ⟨before, q, after, hqs, -, hq, rfl⟩ := (h.memberOffset_eq_ok hD).1 hf
  have hmem : q ∈ t.parts t.depth D := by rw [hqs]; simp
  obtain ⟨-, hoff, -⟩ := h.member_own hbound hmem hq
  obtain ⟨hpos, hinside⟩ := (stacked_parts h hbound t.depth D).inside q hmem
  obtain ⟨i, s, hs, his, -, he, hk, -⟩ := of_ownMember hq
  have hsm := List.mem_of_getElem? his
  obtain ⟨-, -, hlt, -, hbytes⟩ := h.class_bytes hbound hs
  have htop := h.ownTop_nonpos hbound q.name
  have hbase : t.ownTop q.name = (t.ownBase s).toInt := by rw [Table.ownTop, hs]; rfl
  have htiled := h.classes s hsm
  rw [h.based hbound s hsm] at htiled
  obtain ⟨o, ho, hhigh, hlow⟩ := (tiled_bounds htiled (fun e he hk =>
    h.entry_nonneg (List.mem_append_left t.functions hsm) he hk) (by omega)).1 e.entry he
    (by rw [hk]; rfl)
  rw [ho, Option.getD_some] at hoff ⊢
  rw [hoff]
  exact ⟨by omega, by omega⟩

theorem base_bounds {D B : String} (hD : ∃ k ∈ p.classes, k.name = D) {off : Int64}
    (hf : t.baseOffset D B = .ok off) :
    off.toInt ≤ 0 ∧ -bytesOf (t.classSize D) ≤ off.toInt - bytesOf (t.classSize B) := by
  obtain ⟨q, hq, rfl⟩ := (h.baseOffset_eq_ok hD).1 hf
  obtain rfl : q.name = B := by simpa using List.find?_some hq
  exact (stacked_parts h hbound t.depth D).inside q (List.mem_of_find?_eq_some hq)

omit hbound

variable (hfit : Fits p sizes t)

include hfit

/-! ### What types take -/

theorem takes_entry (hp : sizes.Proper) {s : Scope} (hs : s ∈ t.classes ++ t.functions) {e : Entry}
    (he : e ∈ s.storage) (hk : e.kind.isAddress = false) :
    t.Takes sizes e.type (bytesOf e.size) := by
  obtain ⟨k, hsize, hsum⟩ := (h.addsUp hfit hp).values s hs e he hk
  have hlt := h.entry_lt hs he
  have hdims := (h.sizable s hs e he hk).dims
  refine ⟨k, hsize, ?_, hdims, hsum, hlt⟩
  have hnn := h.entry_nonneg hs (List.mem_filter.1 he).1 (List.mem_filter.1 he).2
  by_contra hneg
  rw [hsum, prod_dimensions hdims] at hnn
  have := dimensions_pos hdims
  exact absurd hnn (not_le.2 (Int.mul_neg_of_neg_of_pos (by omega) (by omega)))

theorem takes_object {name : String} (hc : ∃ k ∈ p.classes, k.name = name) :
    t.Takes sizes (.object name) (bytesOf (t.classSize name)) := by
  obtain ⟨s, hs⟩ := Option.isSome_iff_exists.1 (h.declares.class?_isSome.2 hc)
  obtain ⟨hsize, hnn, hlt, -, -⟩ := h.class_bytes hfit.classes hs
  obtain ⟨n, hn⟩ := Option.ne_none_iff_exists'.1 hsize
  rw [hn] at hnn hlt ⊢
  rw [Table.classSize, hs] at hn
  refine ⟨n, ?_, hnn, by simp [Ty.object, Ty.scalar],
    by simp [bytesOf, wordOfSize, Ty.object, Ty.scalar], hlt⟩
  simp only [Table.elementSize, Ty.object, Ty.scalar, hs]
  exact congrArg Except.ok hn

omit h hfit in
theorem takes_integer (hp : sizes.Proper) : t.Takes sizes .integer sizes.word.toInt := by
  have hword := Int64.lt_iff_toInt_lt.1 hp.word
  rw [Int64.toInt_zero] at hword
  exact ⟨sizes.word, rfl, by omega, nofun, by simp [Ty.integer, Ty.scalar], sizes.word.toInt_lt⟩

end LaidOut

end MoonBackend
