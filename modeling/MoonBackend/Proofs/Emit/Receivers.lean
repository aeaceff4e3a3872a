import MoonBackend.Proofs.Code.Copies
import MoonBackend.Proofs.Emit.Indexing
import MoonBackend.Proofs.Emit.Touched

/-!
# Where receivers lie

The address at which the value of an expression lies, given what the frame holds, and the execution of
the code that finds it: first a location, then its absolute address, which is saved in the slot for the
receiver of a call.
-/

namespace MoonBackend

open Machine Code

/-- Some bytes, from the word at a position downwards, lie inside a memory that a word can address. -/
structure FrameIn (mem : Memory) (x n : ℤ) : Prop where
  low : 0 ≤ x - n + 4
  high : x + 4 ≤ mem.size
  small : mem.size < 2 ^ 31

namespace FrameIn

variable {mem mem' : Memory} {x n k : ℤ} {off : Int64}

theorem inside (h : FrameIn mem x n) (hw : Within n 4 off) : mem.Inside (x + off.toInt) 4 := by
  obtain ⟨hlow, hhigh, hsmall⟩ := h
  obtain ⟨h0, h1⟩ := hw
  exact ⟨by omega, by push_cast; omega, hsmall⟩

theorem of_size (h : FrameIn mem x n) (hs : mem'.size = mem.size) : FrameIn mem' x n :=
  ⟨h.low, hs ▸ h.high, hs ▸ h.small⟩

theorem mono (h : FrameIn mem x n) (hk : k ≤ n) : FrameIn mem x k :=
  ⟨by have := h.low; omega, h.high, h.small⟩

end FrameIn

def Expr.indexesIntegers : Expr → Bool
  | .index _ indices _ => indices.all (·.type.isInteger)
  | _ => true

namespace Emit

variable {p : Program} {c : Context} {site : Site} {a : ℕ} {m m' : Machine} {x : ℤ} {path : Path}
  {e : Expr} {code more : Code} {l : Location} {r : Register} {v : Int32} {off : Int64}

/-! ### Machines at code -/

structure AtCode (c : Context) (site : Site) (a : ℕ) (code : Code) (m : Machine) (x : ℤ) : Prop where
  code : site.Holds a code
  on : m.On site a
  zero : m.get c.nought = 0
  stack : m.get c.sp = Int32.ofInt x

namespace AtCode

theorem first (h : AtCode c site a (code ++ more) m x) : AtCode c site a code m x :=
  ⟨((site.holds_append a code more).1 h.code).1, h.on, h.zero, h.stack⟩

theorem after {w : List Register} {mem : Memory} (h : AtCode c site a (code ++ more) m x)
    (hscratch : Scratch c) (hrun : Reaches site w m (a + Code.size code) mem m')
    (hw : ∀ q ∈ w, q ∈ c.general) : AtCode c site (a + Code.size code) more m' x :=
  ⟨((site.holds_append a code more).1 h.code).2, hrun.on,
    (hrun.get _ fun hm => hscratch.zero (hw _ hm)).trans h.zero,
    (hrun.get _ fun hm => hscratch.stack (hw _ hm)).trans h.stack⟩

theorem address_slot (h : AtCode c site a code m x) (off : Int64) :
    m.address (c.slot off) = Int32.ofInt (x + off.toInt) := by
  rw [Int32.ofInt_add, ← toInt32_eq_ofInt, ← h.stack]
  rfl

end AtCode

/-! ### Addresses -/

/-- Where the value of an expression lies, in a frame at a position. -/
inductive Lies (c : Context) (mem : Memory) (x : ℤ) : Path → Expr → Int32 → Prop
  | variable {path : Path} {name : String} {type : Ty} {l : Located} {off : Int64} :
    c.layout.table.resolveName c.index name = some (l, false) → l.entry.getOffset = .ok off →
    Lies c mem x path (.var name type) (Int32.ofInt (x + off.toInt))
  | member {path : Path} {name : String} {type : Ty} {l l' : Located} {off shift : Int64} :
    c.layout.table.resolveName c.index name = some (l, true) → Finds c (ownSlot .reference) off →
    c.layout.table.memberOffset c.head.className name = .ok (shift, l') →
    Lies c mem x path (.var name type) (mem.word (x + off.toInt) + shift.toInt32)
  | dot {path : Path} {left : Expr} {name : String} {type : Ty} {v : Int32} {shift : Int64}
    {l' : Located} : Lies c mem x (0 :: path) left v →
    c.layout.table.memberOffset left.type.base.className name = .ok (shift, l') →
    Lies c mem x path (.dot left name type) (v + shift.toInt32)
  | index {path : Path} {base : Expr} {indices : List Expr} {type : Ty} {size : Option Int64}
    {v : Int32} {vs : List Int32} : c.layout.sizeOf type = .ok size → Lies c mem x (0 :: path) base v →
    List.Forall₂ (HasValue c mem x) (operandsFrom path 1 indices) vs →
    Lies c mem x path (.index base indices type)
      (elementAddress v (wordOfSize size) base.type.dims vs)
  | value {path : Path} {e : Expr} {place : Place} : (∀ name type, e ≠ .var name type) →
    (∀ left name type, e ≠ .dot left name type) →
    (∀ base indices type, e ≠ .index base indices type) → Finds c (placeOf path e) place →
    Lies c mem x path e (Int32.ofInt (x + place.offset.toInt))

theorem Locates.general (hl : Locates c path e code l) (hh : l.held = true) : l.base ∈ c.general := by
  induction hl with
  | «variable» | value => cases hh
  | member _ _ _ hr => exact hr
  | dot _ _ ih => exact ih hh
  | index _ _ hidx => exact hidx

/-- The code for a location leads to where the value lies. -/
theorem Locates.exec (hl : Locates c path e code l) (h : Fitted p c) (hscratch : Scratch c)
    (he : e.Completed c.layout.table c.index) (hat : AtCode c site a code m x)
    (hin : FrameIn m.memory x c.frameBytes) (hv : Lies c m.memory x path e v) :
    ∃ m', Computes site c.general m (a + Code.size code) m' ∧ m'.address l = v := by
  induction hl generalizing v with
  | «variable» hres hoff =>
    refine ⟨m, .refl hat.on, ?_⟩
    cases hv with
    | «variable» hres' hoff' =>
      cases hres.symm.trans hres'
      cases hoff.symm.trans hoff'
      exact hat.address_slot _
    | member hres' => cases hres.symm.trans hres'
    | value hvar => exact absurd rfl (hvar _ _)
  | member hres hm hoff hr hshift =>
    cases hv with
    | «variable» hres' => cases hres.symm.trans hres'
    | member hres' hoff' hshift' =>
      obtain rfl := hoff.unique hoff'
      cases hshift.symm.trans hshift'
      have hcode := hat.code
      simp only [plain, List.map, Site.holds_plain, Site.holds_nil, and_true] at hcode
      have e1 := hat.on.exec_lw hcode hat.stack (hin.inside (h.self_within hm hoff))
      refine ⟨_, Computes.put hat.on e1 hr, ?_⟩
      rw [address, get_put_self (hscratch.writable _ hr), Int64.zero_add]
    | value hvar => exact absurd rfl (hvar _ _)
  | dot _ hshift ih =>
    cases hv with
    | dot hv hshift' =>
      cases hshift.symm.trans hshift'
      obtain ⟨m', hrun, haddr⟩ := ih he.1 hat hv
      refine ⟨m', hrun, ?_⟩
      rw [← haddr, address, address, Int64.toInt32_add, Int32.add_assoc]
    | value _ hdot => exact absurd rfl (hdot _ _ _)
  | index hsize hbase hidx hfree hfirst hrest ih =>
    obtain ⟨hcomplete, -, hne, hlen, -⟩ := he
    cases hv with
    | index hsize' hv hvs =>
      cases hsize.symm.trans hsize'
      obtain ⟨m₁, c1, haddr₁⟩ := ih hcomplete hat.first hv
      have hat₁ := hat.after hscratch (.of_computes c1) fun _ hq => hq
      obtain ⟨m₂, c2, haddr₂⟩ := leads_indices hscratch hbase.base hidx hfree hne hlen hfirst hrest
        ⟨hat₁.code, hat₁.on, hat₁.zero, hat₁.stack, c1.memory ▸ hvs⟩
      rw [Code.size_append, ← Nat.add_assoc]
      exact ⟨m₂, c1.trans c2, by rw [haddr₂, haddr₁]⟩
    | value _ _ hindex => exact absurd rfl (hindex _ _ _)
  | value hvar hdot hindex hp =>
    refine ⟨m, .refl hat.on, ?_⟩
    cases hv with
    | «variable» => exact absurd rfl (hvar _ _)
    | member => exact absurd rfl (hvar _ _)
    | dot => exact absurd rfl (hdot _ _ _)
    | index => exact absurd rfl (hindex _ _ _)
    | value _ _ _ hp' =>
      obtain rfl := hp.unique hp'
      exact hat.address_slot _

theorem exists_values {mem : Memory} (h : Fitted p c) {i : ℕ} {es : List Expr}
    (he : AllReady c path i es) (hint : es.all (·.type.isInteger) = true)
    (hfinds : ∀ o ∈ operandsFrom path i es, ∃ place, Finds c (placeOf o.1 o.2) place)
    (hin : FrameIn mem x c.frameBytes) :
    ∃ vs, List.Forall₂ (HasValue c mem x) (operandsFrom path i es) vs := by
  induction es generalizing i with
  | nil => exact ⟨[], .nil⟩
  | cons e es ih =>
    rw [List.all_cons, Bool.and_eq_true] at hint
    rw [operandsFrom, List.forall_mem_cons] at hfinds
    obtain ⟨⟨place, hplace⟩, hfinds⟩ := hfinds
    obtain ⟨vs, hvs⟩ := ih he.tail hint.2 hfinds
    refine ⟨_, .cons ⟨place, hplace, ?_, rfl⟩ hvs⟩
    cases place with
    | immediate => trivial
    | slot off => exact hin.inside (h.place_integer he.head hplace hint.1 off rfl)

theorem Accumulates.finds {held : List Register} {idx : Register} {ds : List Int64}
    {os : List (Path × Expr)} (ha : Accumulates c held idx (ds.zip os) code)
    (hlen : os.length ≤ ds.length) : ∀ o ∈ os, ∃ place, Finds c (placeOf o.1 o.2) place := by
  induction os generalizing ds code with
  | nil => exact fun _ ho => (List.not_mem_nil ho).elim
  | cons o os ih =>
    cases ds with
    | nil => simp at hlen
    | cons d ds =>
      rw [List.zip_cons_cons] at ha
      cases ha with
      | cons _ _ hp _ hmore =>
        exact List.forall_mem_cons.2 ⟨⟨_, hp⟩, ih hmore (by simpa using hlen)⟩

theorem StartsIndex.finds {held : List Register} {idx : Register} {ds : List Int64}
    {es : List Expr} (hs : StartsIndex c path idx es code)
    (ha : Accumulates c held idx (laterIndices path ds es) more) (hlen : es.length ≤ ds.length) :
    ∀ o ∈ operandsFrom path 1 es, ∃ place, Finds c (placeOf o.1 o.2) place := by
  cases hs with
  | nil => exact fun _ ho => (List.not_mem_nil ho).elim
  | cons hp _ =>
    cases ds with
    | nil => simp at hlen
    | cons d ds =>
      rw [laterIndices_cons] at ha
      refine List.forall_mem_cons.2 ⟨⟨_, hp⟩, ha.finds ?_⟩
      rw [length_operandsFrom]
      simpa using hlen

/-- Whatever has a location lies somewhere, if its indices are integers. -/
theorem Locates.exists_lies {mem : Memory} (hl : Locates c path e code l) (h : Fitted p c)
    (he : Ready c .location path e) (hint : e.all Expr.indexesIntegers = true)
    (hin : FrameIn mem x c.frameBytes) : ∃ v, Lies c mem x path e v := by
  induction hl with
  | «variable» hres hoff => exact ⟨_, .variable hres hoff⟩
  | member hres _ hoff _ hshift => exact ⟨_, .member hres hoff hshift⟩
  | dot _ hshift ih =>
    rw [Expr.all, Bool.and_eq_true] at hint
    obtain ⟨v, hv⟩ := ih he.left_of_dot hint.2
    exact ⟨_, .dot hv hshift⟩
  | index hsize _ _ _ hfirst hrest ih =>
    rw [Expr.all, Bool.and_eq_true, Bool.and_eq_true] at hint
    obtain ⟨v, hv⟩ := ih he.base_of_index hint.1.2
    obtain ⟨-, -, -, hlen, -⟩ := he.completed
    obtain ⟨vs, hvs⟩ := exists_values h he.indices_of_index hint.1.1 (hfirst.finds hrest hlen) hin
    exact ⟨_, .index hsize hv hvs⟩
  | value hvar hdot hindex hp => exact ⟨_, .value hvar hdot hindex hp⟩

theorem exec_addOffset {b : Register} (hon : m.On site a) (hr : r.Writable)
    (hcode : site.HoldsItem a (.imm .addi r b off)) :
    ∃ m', Computes site [r] m (a + 4) m' ∧ m'.get r = m.get b + off.toInt32 := by
  have e1 := hon.exec_imm (v := m.get b + off.toInt32) hcode rfl rfl
  exact ⟨_, Computes.put hon e1 (by simp), get_put_self hr⟩

theorem exec_adjust (hon : m.On site a) (hr : r.Writable) (hcode : site.Holds a (adjust r off)) :
    ∃ m', Computes site [r] m (a + Code.size (adjust r off)) m'
      ∧ m'.get r = m.get r + off.toInt32 := by
  unfold adjust at hcode ⊢
  split at hcode
  · rename_i hzero
    rw [if_pos hzero, eq_of_beq hzero]
    exact ⟨m, .refl hon, (Int32.add_zero _).symm⟩
  · rename_i hzero
    rw [if_neg hzero]
    simp only [plain, List.map, Site.holds_plain, Site.holds_nil, and_true] at hcode
    exact exec_addOffset hon hr hcode

theorem Addresses.exec (hadr : Addresses c l code r) (hr : r.Writable) (hon : m.On site a)
    (hcode : site.Holds a code) :
    ∃ m', Computes site [r] m (a + Code.size code) m' ∧ m'.get r = m.address l := by
  cases hadr with
  | held => exact exec_adjust hon hr hcode
  | free =>
    simp only [plain, List.map, Site.holds_plain, Site.holds_nil, and_true] at hcode
    exact exec_addOffset hon hr hcode

theorem Addresses.mem_general (hadr : Addresses c l more r) (hl : Locates c path e code l) :
    r ∈ c.general := by
  cases hadr with
  | held hh => exact hl.general hh
  | free _ hr => exact hr

/-! ### Saved receivers -/

/-- The address of the receiver of a call stands in its slot, and every other byte is as it was. -/
structure Saved (c : Context) (x : ℤ) (path : Path) (recv : Expr) (v : Int32) (mem mem' : Memory) :
    Prop where
  size : mem'.size = mem.size
  word : recv.isMissing = false → ∀ off, Finds c (slotOffset (.expr path recv) .reference) off →
    mem'.word (x + off.toInt) = v
  frame : ∀ y, 0 ≤ y → (recv.isMissing = false →
    ∀ off, Finds c (slotOffset (.expr path recv) .reference) off →
      y < x + off.toInt ∨ x + off.toInt + 4 ≤ y) → mem'.byte y = mem.byte y

theorem SavesReceiver.exec (hs : SavesReceiver c path e code) (h : Fitted p c)
    (hscratch : Scratch c)
    (he : e.isMissing = false → e.Completed c.layout.table c.index)
    (hb : ¬ e.isMissing = true → Backed c.scope [Demand.receiver path e])
    (hat : AtCode c site a code m x) (hin : FrameIn m.memory x c.frameBytes)
    (hv : e.isMissing = false → Lies c m.memory x path e v) :
    ∃ mem m', Reaches site c.general m (a + Code.size code) mem m'
      ∧ Saved c x path e v m.memory mem := by
  cases hs with
  | none hmissing =>
    refine ⟨m.memory, m, .of_computes (.refl hat.on), rfl, fun hm => ?_, fun _ _ _ => rfl⟩
    rw [hmissing] at hm
    cases hm
  | @some off locating move l r hmissing hoff hloc haddr =>
    have hr := haddr.mem_general hloc
    have hinside := hin.inside (h.address_within (hb (by rw [hmissing]; decide)) hoff rfl)
    obtain ⟨m₁, c1, haddr₁⟩ := hloc.exec h hscratch (he hmissing) hat.first.first hin (hv hmissing)
    have hat₁ := hat.first.after hscratch (.of_computes c1) fun _ hq => hq
    obtain ⟨m₂, c2, hr₂⟩ := haddr.exec (hscratch.writable r hr) hat₁.on hat₁.code
    have c12 := c1.trans (c2.mono fun q hq => (List.mem_singleton.1 hq) ▸ hr)
    rw [Nat.add_assoc, ← Code.size_append] at c12
    have hat₂ := hat.after hscratch (.of_computes c12) fun _ hq => hq
    have hcode := hat₂.code
    simp only [plain, List.map, Site.holds_plain, Site.holds_nil, and_true] at hcode
    have e3 := hat₂.on.exec_sw hcode hat₂.stack (c12.memory ▸ hinside)
    rw [hr₂, haddr₁] at e3
    have c3 := Reaches.after c12 (Reaches.poke hat₂.on e3)
    have hend : a + Code.size (locating ++ move) + 4
        = a + Code.size (locating ++ move ++ plain [.sw off c.sp r]) := by
      rw [Code.size_append (locating ++ move), ← Nat.add_assoc]
      rfl
    rw [c12.memory, hend] at c3
    refine ⟨_, _, c3, Memory.size_setWord .., fun _ off' hoff' => ?_, fun y hy hout => ?_⟩
    · obtain rfl := hoff.unique hoff'
      exact Memory.word_setWord_self v hinside
    · exact Memory.byte_setWord_of_ne v hinside hy (hout hmissing off hoff)

end Emit

end MoonBackend
