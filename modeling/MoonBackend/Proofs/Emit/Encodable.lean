import MoonBackend.Proofs.Emit.Slots
import MoonBackend.Proofs.Integer.Execution

/-!
# Operands that fit into an instruction

In a program whose frames and objects are small, every immediate operand of the emitted code is in
the range that the assembler takes, and every register exists.
-/

namespace MoonBackend

open Layout Code

/-! ### Operands -/

/-- A number that the assembler takes as an immediate operand. -/
def Immediate (n : Int64) : Prop := -32768 ≤ n.toInt ∧ n.toInt ≤ 65535

def Register.Known (r : Register) : Prop := r.index?.isSome = true

def Item.Encodable : Item → Prop
  | .instruction i => i.ri.Known ∧ i.rj.Known ∧ i.rk.Known ∧ ∀ n, i.k = .number n → Immediate n
  | _ => True

theorem known_unused : Item.unused.Known := by
  unfold Register.Known
  decide

theorem immediate_zero : Immediate 0 := by
  unfold Immediate
  decide

namespace Item

variable {op : Opcode} {r ri rj rk : Register} {n : Int64} {s : String}

theorem encodable_instruction {i : Instruction Register Operand} :
    (Item.instruction i).Encodable ↔
      i.ri.Known ∧ i.rj.Known ∧ i.rk.Known ∧ ∀ n, i.k = .number n → Immediate n := .rfl

@[simp] theorem encodable_reg3 :
    (Item.reg3 op ri rj rk).Encodable ↔ ri.Known ∧ rj.Known ∧ rk.Known := by
  simp [encodable_instruction, Item.reg3, immediate_zero]

@[simp] theorem encodable_imm :
    (Item.imm op ri rj n).Encodable ↔ ri.Known ∧ rj.Known ∧ Immediate n := by
  simp [encodable_instruction, Item.imm, known_unused]

@[simp] theorem encodable_named : (Item.named op ri rj s).Encodable ↔ ri.Known ∧ rj.Known := by
  simp [encodable_instruction, Item.named, known_unused]

@[simp] theorem encodable_reg1 : (Item.reg1 op r).Encodable ↔ r.Known := by
  simp [encodable_instruction, Item.reg1, known_unused, immediate_zero]

@[simp] theorem encodable_bare : (Item.bare op).Encodable := by
  simp [encodable_instruction, Item.bare, known_unused, immediate_zero]

@[simp] theorem encodable_lw : (Item.lw r n rj).Encodable ↔ r.Known ∧ rj.Known ∧ Immediate n := by
  simp [encodable_instruction, Item.lw, known_unused]

@[simp] theorem encodable_sw : (Item.sw n rj r).Encodable ↔ r.Known ∧ rj.Known ∧ Immediate n := by
  simp [encodable_instruction, Item.sw, known_unused]

@[simp] theorem encodable_sl : (Item.sl r n).Encodable ↔ r.Known ∧ Immediate n := by
  simp [encodable_instruction, Item.sl, known_unused]

@[simp] theorem encodable_bz : (Item.bz r s).Encodable ↔ r.Known := by
  simp [encodable_instruction, Item.bz, known_unused]

@[simp] theorem encodable_bnz : (Item.bnz r s).Encodable ↔ r.Known := by
  simp [encodable_instruction, Item.bnz, known_unused]

@[simp] theorem encodable_j : (Item.j s).Encodable := by
  simp [encodable_instruction, Item.j, known_unused]

@[simp] theorem encodable_jl : (Item.jl r s).Encodable ↔ r.Known := by
  simp [encodable_instruction, Item.jl, known_unused]

end Item

namespace Code

def Encodable (code : Code) : Prop := ∀ l ∈ code, ∀ item, l.item? = some item → item.Encodable

variable {code more : Code} {items : List Item}

@[simp] theorem encodable_nil : Encodable [] := fun _ h => by cases h

@[simp] theorem encodable_append : Encodable (code ++ more) ↔ Encodable code ∧ Encodable more :=
  List.forall_mem_append

@[simp] theorem encodable_plain : Encodable (plain items) ↔ ∀ item ∈ items, item.Encodable := by
  unfold Encodable plain
  simp [Line.item?]

@[simp] theorem encodable_labeled {label : String} {item : Item} :
    Encodable (.labeled label item :: code) ↔ item.Encodable ∧ Encodable code := by
  unfold Encodable
  simp [Line.item?]

@[simp] theorem encodable_mark (label : String) : Encodable (mark label :: code) ↔ Encodable code := by
  simp [mark]

end Code

/-! ### Offsets -/

def Place.Low (p : Place) : Prop := ∀ off, p = .slot off → Within 16384 0 off

theorem Within.mono {off : Int64} {high high' n n' : ℤ} (h : Within high n off) (hh : high ≤ high') (hn : n' ≤ n) :
    Within high' n' off := ⟨h.1, by have := h.2; omega⟩

theorem Within.immediate {off : Int64} (h : Within 32768 0 off) : Immediate off :=
  ⟨by have := h.2; omega, by have := h.1; omega⟩

namespace Emit

variable {p : Program} {c : Context} {path : Path} {e : Expr} {off : Int64} {r : Register}
  {code : Code}

@[simp] theorem encodable_note (text : String) : Encodable (c.note text) := by
  unfold Context.note Code.Encodable
  split
  · simp [Line.item?]
  · simp

/-! ### Small programs -/

/-- No frame and no object takes more than 16384 bytes, and no dimension is more than 32767. -/
structure Roomy (p : Program) (c : Context) : Prop extends Fitted p c where
  frames : ∀ s ∈ c.layout.table.functions, bytesOf s.size ≤ 16384
  classes : ∀ name, bytesOf (c.layout.table.classSize name) ≤ 16384
  declared : ∀ s ∈ c.layout.table.classes ++ c.layout.table.functions, ∀ e ∈ s.entries,
    e.kind ∈ [.member, .parameter, .localVar] → ∀ d ∈ e.type.dims, d.toInt ≤ 32767
  returns : ∀ f ∈ c.layout.table.program.functions, ∀ d ∈ f.returns.dims, d.toInt ≤ 32767

namespace Roomy

variable (h : Roomy p c)

include h

theorem known_sp : c.sp.Known := by
  rw [Context.sp, h.stock]
  exact (by decide : (⟨14⟩ : Register).index?.isSome = true)

theorem known_nought : c.nought.Known := by
  rw [Context.nought, h.stock]
  exact (by decide : (⟨0⟩ : Register).index?.isSome = true)

theorem known_result : c.result.Known := by
  rw [Context.result, h.stock]
  exact (by decide : (⟨13⟩ : Register).index?.isSome = true)

theorem known_link : c.link.Known := by
  rw [Context.link, h.stock]
  exact (by decide : (⟨15⟩ : Register).index?.isSome = true)

theorem known_general (hr : r ∈ c.general) : r.Known := by
  rw [Context.general, h.stock] at hr
  exact (by decide : ∀ r ∈ (Registers.general {}).map Register.mk, r.index?.isSome = true) r hr

theorem frame_le : c.frameBytes ≤ 16384 := h.frames _ h.scope_mem

theorem region_le {indexed : Bool} {l : Location} {high : ℤ} (hr : Region c indexed l high) :
    high ≤ 16384 := by
  cases hr with
  | frame => exact h.frame_le
  | receiver => exact h.classes _
  | element _ _ hh =>
    rcases hh with rfl | ⟨-, rfl⟩
    · exact h.frame_le
    · exact h.classes _

theorem low_of_mem {x : Entry} (hx : x ∈ c.scope.entries) (ho : x.getOffset = .ok off) :
    Within 16384 0 off := by
  obtain ⟨hin, hnn⟩ := h.entry_within h.scope hx ho
  exact hin.mono h.frame_le hnn

theorem low_of_slotOffset {node : Backing} {kind : EntryKind}
    (hf : Finds c (slotOffset node kind) off) : Within 16384 0 off := by
  obtain ⟨x, hx, -, ho⟩ := Fitted.of_slotOffset hf
  exact h.low_of_mem hx ho

theorem low_of_ownSlot {kind : EntryKind} (hf : Finds c (ownSlot kind) off) :
    Within 16384 0 off := h.low_of_slotOffset (Fitted.slotOffset_of_ownSlot hf)

theorem low_place {place : Place} (hf : Finds c (placeOf path e) place) : place.Low := by
  rintro off rfl
  obtain ⟨x, hx, ho⟩ := h.place_mem hf
  exact h.low_of_mem hx ho

theorem low_places {i : ℕ} {es : List Expr} {ps : List Place} (hp : Places c path i es ps) :
    ∀ place ∈ ps, place.Low := by
  induction hp with
  | nil => exact fun _ hm => by cases hm
  | cons hf _ ih => exact List.forall_mem_cons.2 ⟨h.low_place hf, ih⟩

theorem words_le {type : Ty} {n : ℤ} {w : Int64} (ht : c.Takes type n) (hle : n ≤ 16384)
    (hw : Finds c (words type) w) : 4 * w.toInt = n ∧ 0 < w.toInt ∧ w.toInt ≤ 4096 := by
  obtain ⟨hwn, hpos, -⟩ := h.words_eq ht hw
  exact ⟨hwn, hpos, by omega⟩

end Roomy

/-! ### Moves -/

theorem Constant.encodable {v : Int64} (hc : Constant c r v code) (h : Roomy p c) (hr : r.Known) :
    Encodable code := by
  have hz := h.known_nought
  cases hc with
  | short h0 h1 =>
    have h0 := Int64.le_iff_toInt_le.1 h0
    have h1 := Int64.lt_iff_toInt_lt.1 h1
    rw [show (-32768 : Int64).toInt = -32768 from rfl] at h0
    rw [show (32768 : Int64).toInt = 32768 from rfl] at h1
    have hv : Immediate v := ⟨h0, by omega⟩
    simp [hr, hz, hv]
  | long h0 h1 =>
    have h0 := Int64.le_iff_toInt_le.1 h0
    have h1 := Int64.lt_iff_toInt_lt.1 h1
    rw [show (-2147483648 : Int64).toInt = -2147483648 from rfl] at h0
    rw [show (2147483648 : Int64).toInt = 2147483648 from rfl] at h1
    have hhigh : Immediate (v >>> 16) := by
      unfold Immediate
      rw [toInt_highHalf]
      omega
    have hlow : Immediate (v &&& 65535) := by
      unfold Immediate
      rw [toInt_lowHalf]
      omega
    have hshift : Immediate 16 := ⟨by decide, by decide⟩
    simp [hr, hz, hhigh, hlow, hshift]

theorem Loads.encodable {place : Place} {i : Int64} (hl : Loads c r place i code) (h : Roomy p c)
    (hr : r.Known) (hp : place.Low) (hi : i = 0 ∨ i = 1) : Encodable code := by
  cases hl with
  | immediate hc => exact hc.encodable h hr
  | slot off i =>
    obtain ⟨hhigh, hlow⟩ := hp off rfl
    have hoff : Immediate (off - i * c.word) := by
      rw [h.word_eq]
      unfold Immediate
      rcases hi with rfl | rfl
      · rw [toInt_sub_of_le (by decide) (by simp; omega)]
        simp
        omega
      · rw [toInt_sub_of_le (by decide) (by simp; omega)]
        simp
        omega
    simp [hr, h.known_sp, hoff]

theorem toInt_below {high n : ℤ} {i : ℕ} (hw : Within high (4 * n) off) (hi : (i : ℤ) < n)
    (hlt : high < 2 ^ 63) : (off - Int64.ofNat i * 4).toInt = off.toInt - 4 * i := by
  obtain ⟨h0, hlow⟩ := hw
  have hlt := off.le_toInt
  have hmul : (Int64.ofNat i * 4).toInt = 4 * i := by
    rw [Int64.toInt_mul, Int64.toInt_ofNat_of_lt (by omega), show (4 : Int64).toInt = 4 from rfl,
      Int.bmod_eq_of_le (by omega) (by omega)]
    omega
  rw [toInt_sub_of_le (by omega) (by omega), hmul]

theorem mem_copyCode {word n : Int64} {dst src : Location} {l : Line}
    (hl : l ∈ copyCode word r dst src n) : ∃ i : ℕ, (i : ℤ) < n.toInt
      ∧ (l = .plain (.lw r (src.off - Int64.ofNat i * word) src.base)
        ∨ l = .plain (.sw (dst.off - Int64.ofNat i * word) dst.base r)) := by
  obtain ⟨item, hitem, rfl⟩ := List.mem_map.1 hl
  obtain ⟨i, hi, hitem⟩ := List.mem_flatMap.1 hitem
  have hlt := List.mem_range.1 hi
  refine ⟨i, by unfold Int64.toNatClampNeg at hlt; omega, ?_⟩
  rcases List.mem_cons.1 hitem with rfl | hitem
  · exact .inl rfl
  · rw [List.mem_singleton.1 hitem]
    exact .inr rfl

theorem encodable_copyCode {n : Int64} {dst src : Location} (h : Roomy p c) (hr : r.Known)
    (hd : dst.base.Known) (hs : src.base.Known) (hn : n.toInt ≤ 4096)
    (hdst : Within 32772 (4 * n.toInt) dst.off) (hsrc : Within 16384 0 src.off) :
    Encodable (copyCode c.word r dst src n) := by
  rw [h.word_eq]
  have himm : ∀ off, Within 32772 (4 * n.toInt) off → ∀ i : ℕ, (i : ℤ) < n.toInt →
      Immediate (off - Int64.ofNat i * 4) := by
    intro off hoff i hi
    unfold Immediate
    rw [toInt_below hoff hi (by decide)]
    obtain ⟨h0, hlow⟩ := hoff
    omega
  intro l hl item hitem
  obtain ⟨i, hi, rfl | rfl⟩ := mem_copyCode hl
  · cases hitem
    simp only [Item.encodable_lw]
    exact ⟨hr, hs, himm _ ⟨hsrc.1, by have := hsrc.2; omega⟩ i hi⟩
  · cases hitem
    simp only [Item.encodable_sw]
    exact ⟨hr, hd, himm _ hdst i hi⟩

theorem Stores.encodable {dst : Location} {place : Place} {n : Int64}
    (hs : Stores c r dst place n code) (h : Roomy p c) (hr : r.Known) (hd : dst.base.Known)
    (hp : place.Low) (hn : n.toInt ≤ 4096) (hdst : Within 32772 (4 * n.toInt) dst.off) :
    Encodable code := by
  cases hs with
  | slot off n => exact encodable_copyCode h hr hd h.known_sp hn hdst (hp off rfl)
  | immediate hc =>
    have himm : Immediate dst.off := ⟨by have := hdst.2; simp at this; omega, by have := hdst.1; omega⟩
    simp [hc.encodable h hr, hr, hd, himm]

/-! ### Locations -/

theorem Roomy.member_extent (h : Roomy p c) {className name : String} {l : MoonBackend.Located}
    (hl : c.layout.table.member? className name = some l) :
    ∀ d ∈ l.entry.type.dims, d.toInt ≤ 32767 := by
  have hD := h.laid.declares.class?_isSome.1 (Standing.class_of_member? hl)
  obtain ⟨off, hoff⟩ := h.memberOffset hl
  obtain ⟨before, q, after, -, -, hq, -⟩ := (h.laid.memberOffset_eq_ok hD).1 hoff
  obtain ⟨i, s, -, his, -, hmem, hkind, -⟩ := of_ownMember hq
  exact h.declared s (List.mem_append_left _ (List.mem_of_getElem? his)) l.entry hmem
    (by rw [hkind]; decide)

theorem Ready.extent_le (h : Roomy p c) {use : Use} {path : Path} :
    ∀ {e : Expr}, Ready c use path e → ∀ d ∈ e.type.dims, d.toInt ≤ 32767
  | .missing, he => he.completed.elim
  | .int _, _ | .float _, _ => fun _ hd => by cases hd
  | .var name type, he => by
    obtain ⟨⟨l, member⟩, hfound, rfl⟩ := Option.map_eq_some_iff.1 he.completed
    cases member with
    | true => exact h.member_extent (h.member_of_resolveName hfound).2
    | false =>
      obtain ⟨hmem, hk⟩ := h.kind_of_lookup (h.local_of_resolveName hfound).2
      refine h.declared _ (List.mem_append_right _ h.scope_mem) l.entry hmem ?_
      rcases hk with hk | hk
      · rw [hk]
        decide
      · rw [hk]
        decide
  | .dot left member type, he => by
    obtain ⟨-, className, -, hm⟩ := he.completed
    obtain ⟨l, hl, rfl⟩ := Option.map_eq_some_iff.1 hm
    exact h.member_extent hl
  | .index base indices type, he => by
    obtain ⟨-, -, -, -, rfl⟩ := he.completed
    exact fun d hd => Ready.extent_le h he.base_of_index d (List.mem_of_mem_drop hd)
  | .unary op operand type, he => by
    obtain ⟨-, rfl⟩ := he.completed
    simp only [Expr.type]
    split
    · intro d hd
      cases hd
    · exact Ready.extent_le h he.operand_of_unary
  | .binary op left right type, he => by
    obtain ⟨-, -, rfl⟩ := he.completed
    simp only [Expr.type]
    split
    · intro d hd
      cases hd
    · exact Ready.extent_le h he.left_of_binary
  | .call recv name args isNew type target, he => by
    obtain ⟨-, -, k, f, rfl, hf, -, -, rfl⟩ := he.completed
    simp only [Expr.type]
    split
    · intro d hd
      cases hd
    · obtain ⟨g, hg, rfl⟩ := Option.map_eq_some_iff.1 hf
      exact h.returns g (List.mem_of_getElem? hg)

theorem mem_laterIndices {dims : List Int64} {indices : List Expr} {x : Int64 × Path × Expr}
    (hx : x ∈ laterIndices path dims indices) : x.1 ∈ dims := by
  obtain ⟨⟨i, extent, e⟩, hmem, rfl⟩ := List.mem_map.1 hx
  exact (List.of_mem_zip (List.of_mem_zip (List.mem_of_mem_drop hmem)).2).1

theorem Accumulates.encodable {held : List Register} {idx : Register}
    {later : List (Int64 × Path × Expr)} (ha : Accumulates c held idx later code) (h : Roomy p c)
    (hidx : idx.Known) (hl : ∀ x ∈ later, Immediate x.1) : Encodable code := by
  induction ha with
  | nil => simp
  | cons hr _ hp hload _ ih =>
    have hk := h.known_general hr
    rw [List.forall_mem_cons] at hl
    have hcode := hload.encodable h hk (h.low_place hp) (.inl rfl)
    simp [hidx, hk, hl.1, hcode, ih hl.2]

theorem StartsIndex.encodable {idx : Register} {indices : List Expr}
    (hs : StartsIndex c path idx indices code) (h : Roomy p c) (hidx : idx.Known) :
    Encodable code := by
  cases hs with
  | nil => simp
  | cons hp hload => exact hload.encodable h hidx (h.low_place hp) (.inl rfl)

section

variable {l : Location}

theorem Locates.known (hl : Locates c path e code l) (h : Roomy p c) : l.base.Known := by
  induction hl with
  | «variable» => exact h.known_sp
  | member _ _ _ hr => exact h.known_general hr
  | dot _ _ ih => exact ih
  | index _ _ hidx => exact h.known_general hidx
  | value => exact h.known_sp

/-- Every location starts in its frame or object. -/
theorem Locates.low (hl : Locates c path e code l) (h : Roomy p c)
    (he : Ready c .location path e) : Within 16384 0 l.off := by
  by_cases hplace : ∃ place, Finds c (placeOf path e) place ∧ l = c.slot place.offset
  · obtain ⟨place, hp, rfl⟩ := hplace
    cases place with
    | immediate v =>
      show Within 16384 0 0
      exact ⟨by decide, by decide⟩
    | slot off => exact h.low_place hp off rfl
  · have hv : e.type.base ≠ .void := by
      cases hl with
      | «variable» => exact (h.sizable_type he (.inl rfl)).notVoid
      | member => exact (h.sizable_type he (.inl rfl)).notVoid
      | dot hleft =>
        obtain ⟨-, className, -, hm⟩ := he.completed
        obtain ⟨found, hfound, rfl⟩ := Option.map_eq_some_iff.1 hm
        exact (h.sizable_of_member? hfound).notVoid
      | index hsize => exact Fitted.notVoid_of_sizeOf hsize
      | value _ _ _ hp => exact absurd ⟨_, hp, rfl⟩ hplace
    have hi : ∀ v, e ≠ .int v := by
      rintro v rfl
      cases hl with
      | value _ _ _ hp => exact hplace ⟨_, hp, rfl⟩
    obtain ⟨n, high, hn, hregion, hin⟩ := hl.region h.toFitted he hv hi
    exact hin.mono (h.region_le hregion) hn.nonneg

theorem Locates.encodable (hl : Locates c path e code l) (h : Roomy p c)
    (he : Ready c .location path e) : Encodable code := by
  induction hl with
  | «variable» => simp
  | value => simp
  | member _ _ hoff hr =>
    have himm := ((h.low_of_ownSlot hoff).mono (by decide) (le_refl 0)).immediate
    simp [h.known_general hr, h.known_sp, himm]
  | dot _ _ ih => exact ih he.left_of_dot
  | @index path base indices type size before first rest b idx hsize hbase hidx hfree hfirst hrest ih =>
    have hk := h.known_general hidx
    have hb := hbase.known h
    have hv : type.base ≠ .void := Fitted.notVoid_of_sizeOf hsize
    have hi : ∀ v, Expr.index base indices type ≠ .int v := fun v h => by cases h
    obtain ⟨n, high, hn, hregion, hin⟩ := (Locates.index hsize hbase hidx hfree hfirst hrest).region
      h.toFitted he hv hi
    obtain ⟨w, hw, hwn⟩ := hn.sizeOf
    have hsame : size = some w := by
      rw [Layout.sizeOf, h.sizes] at hsize
      exact Except.ok.inj (hsize.symm.trans hw)
    have hle := h.region_le hregion
    have hnn := hn.nonneg
    have himm : Immediate (wordOfSize size) := by
      rw [hsame]
      show -32768 ≤ w.toInt ∧ w.toInt ≤ 65535
      rw [hwn]
      have := hin.1
      have := hin.2
      omega
    obtain ⟨-, -, -, -, rfl⟩ := he.completed
    have hdims := (h.sizable_type he.base_of_index (.inr hv)).dims
    have hextents : ∀ x ∈ laterIndices path base.type.dims indices, Immediate x.1 := by
      intro x hx
      have hd := mem_laterIndices hx
      have hpos : 0 < x.1.toInt := by simpa using Int64.lt_iff_toInt_lt.1 (hdims _ hd)
      have hlow := he.base_of_index.extent_le h _ hd
      exact ⟨by omega, by omega⟩
    simp [ih he.base_of_index, hfirst.encodable h hk, hrest.encodable h hk hextents, hk, hb, himm]

end

end Emit

end MoonBackend
