import MoonBackend.Proofs.Emit.Encodable

/-!
# The words that instructions touch

Which words the loads and stores of some lines can touch, by base register and offset. The value of
every expression lies in slots with room for it, so what moves it touches only words of the frame or
of the receiver.
-/

namespace MoonBackend

open Layout Code

/-- The words that may be touched: by a load or a store, from a base register, at an offset. -/
abbrev Area := Opcode → Register → Int64 → Prop

/-- A load or store stays in the area. -/
def Item.Touches (area : Area) : Item → Prop
  | .instruction i => i.op ∈ [Opcode.lw, .sw] → ∃ off, i.k = .number off ∧ area i.op i.rj off
  | _ => True

namespace Item

variable {area : Area} {op : Opcode} {r ri rj rk : Register} {n : Int64} {s : String}

@[simp] theorem touches_lw : (Item.lw r n rj).Touches area ↔ area .lw rj n := by
  simp [Item.Touches, Item.lw]

@[simp] theorem touches_sw : (Item.sw n rj r).Touches area ↔ area .sw rj n := by
  simp [Item.Touches, Item.sw]

@[simp] theorem touches_reg3 (h : op ∉ [Opcode.lw, .sw]) : (Item.reg3 op ri rj rk).Touches area :=
  fun hop => absurd hop h

@[simp] theorem touches_imm (h : op ∉ [Opcode.lw, .sw]) : (Item.imm op ri rj n).Touches area :=
  fun hop => absurd hop h

@[simp] theorem touches_named (h : op ∉ [Opcode.lw, .sw]) : (Item.named op ri rj s).Touches area :=
  fun hop => absurd hop h

@[simp] theorem touches_reg1 (h : op ∉ [Opcode.lw, .sw]) : (Item.reg1 op r).Touches area :=
  fun hop => absurd hop h

@[simp] theorem touches_bare (h : op ∉ [Opcode.lw, .sw]) : (Item.bare op).Touches area :=
  fun hop => absurd hop h

@[simp] theorem touches_sl : (Item.sl r n).Touches area := by simp [Item.Touches, Item.sl]

@[simp] theorem touches_bz : (Item.bz r s).Touches area := by simp [Item.Touches, Item.bz]

@[simp] theorem touches_bnz : (Item.bnz r s).Touches area := by simp [Item.Touches, Item.bnz]

@[simp] theorem touches_j : (Item.j s).Touches area := by simp [Item.Touches, Item.j]

@[simp] theorem touches_jl : (Item.jl r s).Touches area := by simp [Item.Touches, Item.jl]

end Item

namespace Code

def Touches (area : Area) (code : Code) : Prop :=
  ∀ l ∈ code, ∀ item, l.item? = some item → item.Touches area

variable {area : Area} {code more : Code} {items : List Item}

theorem Touches.mono {area' : Area} (h : Touches area code)
    (ha : ∀ op r off, area op r off → area' op r off) : Touches area' code := by
  intro l hl item hi
  have hitem := h l hl item hi
  cases item with
  | instruction i =>
    intro hop
    obtain ⟨off, hk, hoff⟩ := hitem hop
    exact ⟨off, hk, ha _ _ _ hoff⟩
  | _ => trivial

@[simp] theorem touches_nil : Touches area [] := fun _ h => by cases h

@[simp] theorem touches_append : Touches area (code ++ more) ↔ Touches area code ∧ Touches area more :=
  List.forall_mem_append

@[simp] theorem touches_plain : Touches area (plain items) ↔ ∀ item ∈ items, item.Touches area := by
  unfold Touches plain
  simp [Line.item?]

@[simp] theorem touches_labeled {label : String} {item : Item} :
    Touches area (.labeled label item :: code) ↔ item.Touches area ∧ Touches area code := by
  unfold Touches
  simp [Line.item?]

@[simp] theorem touches_mark (label : String) : Touches area (mark label :: code) ↔ Touches area code := by
  simp +decide [mark]

end Code

/-! ### Words of values -/

theorem Within.word {high n : ℤ} {off : Int64} {i : ℕ} (hw : Within high (4 * n) off)
    (hi : (i : ℤ) < n) (hlt : high < 2 ^ 63) : Within high 4 (off - Int64.ofNat i * 4) := by
  unfold Within
  rw [Emit.toInt_below hw hi hlt]
  obtain ⟨h0, hlow⟩ := hw
  omega

def Place.Has (c : Emit.Context) (n : ℤ) (p : Place) : Prop :=
  ∀ off, p = .slot off → Within c.frameBytes n off

namespace Emit

variable {p : Program} {c : Context} {area : Area} {path : Path} {e : Expr} {off : Int64}
  {r : Register} {code : Code}

@[simp] theorem touches_note (text : String) : Touches area (c.note text) := by
  unfold Context.note Touches
  split
  · simp [Line.item?]
  · simp

theorem Context.frameBytes_lt (c : Context) : c.frameBytes < 2 ^ 63 := Int64.toInt_lt _

/-- The words of the frame of the function under way and of its receiver. -/
inductive Own (c : Context) : Area
  | frame {op : Opcode} {off : Int64} : Within c.frameBytes 4 off → Own c op c.sp off
  | receiver {op : Opcode} {r : Register} {off : Int64} : c.head.isMember = true →
    r ∈ c.general → Within c.selfBytes 4 off → Own c op r off

/-- What is touched in the region of a location that no index leads to. -/
theorem Region.own {l : Location} {high : ℤ} (h : Region c false l high) {op : Opcode}
    (hw : Within high 4 off) : Own c op l.base off := by
  cases h with
  | frame => exact .frame hw
  | receiver hm hr => exact .receiver hm hr hw
  | element hi => cases hi

namespace Fitted

variable (h : Fitted p c)

include h

theorem takes_integer {t : Ty} (ht : t.isInteger = true) : c.Takes t 4 := by
  obtain rfl : t = .integer := by
    obtain ⟨base, dims⟩ := t
    simp only [Ty.isInteger, Bool.and_eq_true, beq_iff_eq, List.isEmpty_iff] at ht
    obtain ⟨rfl, rfl⟩ := ht
    rfl
  have := LaidOut.takes_integer (t := c.layout.table) h.proper
  rwa [h.wordBytes] at this

theorem takes_float {t : Ty} {n : ℤ} (ht : c.Takes t n) (hb : t.base = .float) : 8 ≤ n := by
  obtain ⟨k, hk, -, hd, rfl, -⟩ := ht
  have hfloat : k = 8 := by
    unfold Table.elementSize at hk
    rw [hb, h.stock] at hk
    exact (Option.some.inj (Except.ok.inj hk)).symm
  have hpos := dimensions_pos hd
  rw [hfloat, prod_dimensions hd]
  show 8 ≤ 8 * (dimensions t.dims : ℤ)
  omega

theorem notVoid_of_takes {t : Ty} {n : ℤ} (ht : c.Takes t n) : t.base ≠ .void := by
  obtain ⟨w, hw, -⟩ := ht.sizeOf
  exact notVoid_of_sizeOf (c := c) (Eq.trans (by rw [Layout.sizeOf, h.sizes]) hw)

theorem place_has {place : Place} {n : ℤ} (he : Ready c .value path e)
    (hf : Finds c (placeOf path e) place) (ht : c.Takes e.type n) : place.Has c n := by
  rintro off rfl
  obtain ⟨m, hm, hin⟩ := h.place_within he (h.notVoid_of_takes ht) hf
  exact hm.unique ht ▸ hin

theorem place_integer {place : Place} (he : Ready c .value path e)
    (hf : Finds c (placeOf path e) place) (ht : e.type.isInteger = true) : place.Has c 4 :=
  h.place_has he hf (h.takes_integer ht)

theorem place_float {place : Place} (he : Ready c .value path e)
    (hf : Finds c (placeOf path e) place) (hb : e.type.base = .float) : place.Has c 8 := by
  rintro off rfl
  obtain ⟨n, hn, hin⟩ := h.place_within he (by rw [hb]; nofun) hf
  exact hin.mono (le_refl _) (h.takes_float hn hb)

theorem temporary_within {use : Use} (he : Ready c use path e) (hv : e.type.base ≠ .void)
    (hint : ∀ v, e ≠ .int v) (hvar : ∀ name type, e ≠ .var name type)
    (hdot : ∀ left name type, e ≠ .dot left name type)
    (hindex : ∀ base indices type, e ≠ .index base indices type)
    (hf : Finds c (temporary path e) off) : ∃ n, c.Takes e.type n ∧ Within c.frameBytes n off := by
  have hvalue : Ready c .value path e := by
    cases use with
    | value => exact he
    | location => exact he.value_of_location hvar hdot hindex
  exact h.slot_within (d := .temporary path e)
    (temporary_backed hvalue hv (fun name type _ heq => absurd heq (hvar name type)) hint) hf rfl

theorem self_within (hm : c.head.isMember = true) (hf : Finds c (ownSlot .reference) off) :
    Within c.frameBytes 4 off := by
  have hb := h.headSlots
  rw [Demand.ofHead, backed_append, if_pos hm] at hb
  exact h.address_within hb.2 (slotOffset_of_ownSlot hf) rfl

end Fitted

/-! ### Moves -/

theorem Constant.touches {v : Int64} (hc : Constant c r v code) : Touches area code := by
  cases hc <;> simp +decide

theorem Loads.touches {place : Place} {i : ℕ} {n : ℤ} (hl : Loads c r place (Int64.ofNat i) code)
    (h : Fitted p c) (hp : place.Has c (4 * n)) (hi : (i : ℤ) < n) : Touches (Own c) code := by
  generalize hj : Int64.ofNat i = j at hl
  cases hl with
  | immediate hc => exact hc.touches
  | slot off _ =>
    subst hj
    have hword := (hp off rfl).word hi c.frameBytes_lt
    simp [h.word_eq, Own.frame hword]

theorem touches_copyCode {dst src : Location} {n : Int64} (h : Fitted p c)
    (hload : ∀ i : ℕ, (i : ℤ) < n.toInt → area .lw src.base (src.off - Int64.ofNat i * 4))
    (hstore : ∀ i : ℕ, (i : ℤ) < n.toInt → area .sw dst.base (dst.off - Int64.ofNat i * 4)) :
    Touches area (copyCode c.word r dst src n) := by
  rw [h.word_eq]
  intro l hl item hitem
  obtain ⟨i, hi, rfl | rfl⟩ := mem_copyCode hl
  · cases hitem
    exact Item.touches_lw.2 (hload i hi)
  · cases hitem
    exact Item.touches_sw.2 (hstore i hi)

theorem Stores.touches {dst : Location} {place : Place} {n : Int64}
    (hs : Stores c r dst place n code) (h : Fitted p c) (hp : place.Has c (4 * n.toInt))
    (hload : ∀ off, Within c.frameBytes 4 off → area .lw c.sp off)
    (hstore : ∀ i : ℕ, (i : ℤ) < n.toInt → area .sw dst.base (dst.off - Int64.ofNat i * 4)) :
    Touches area code := by
  cases hs with
  | slot off n =>
    exact touches_copyCode h (fun i hi => hload _ ((hp off rfl).word hi c.frameBytes_lt)) hstore
  | immediate hc =>
    have hfirst := hstore 0 (by decide)
    simpa [hc.touches] using hfirst

theorem Stores.touches_own {dst : Location} {place : Place} {n : Int64} {high : ℤ}
    (hs : Stores c r dst place n code) (h : Fitted p c) (hp : place.Has c (4 * n.toInt))
    (hr : Region c false dst high) (hw : Within high (4 * n.toInt) dst.off) :
    Touches (Own c) code :=
  hs.touches h hp (fun _ => .frame) fun _ hi => hr.own (hw.word hi hr.lt)

theorem Locates.touches {l : Location} (hl : Locates c path e code l) (h : Fitted p c)
    (hi : e.isIndexed = false) : Touches (Own c) code := by
  induction hl with
  | «variable» => simp
  | value => simp
  | member _ hm hoff => simp [Own.frame (h.self_within hm hoff)]
  | dot _ _ ih => exact ih hi
  | index => cases hi

end Emit

end MoonBackend
