import MoonBackend.Proofs.Assembly.Image
import MoonBackend.Proofs.Code.Loads
import MoonBackend.Proofs.Config.Accepted
import MoonBackend.Proofs.Emit.Shaped
import MoonBackend.Proofs.Layout.RowMajor
import MoonBackend.Proofs.Symbols.Completion

/-!
# Indexed elements

The code for indices, on a machine where the values of all indices are ready: from a base of any
address it leads to the row-major position of the element, however the indices are spread over nested
expressions, and it writes nothing but scratch registers.
-/

namespace MoonBackend

open Machine Code

/-- The address that a location names. -/
def Machine.address (m : Machine) (l : Location) : Int32 := m.get l.base + l.off.toInt32

namespace Emit

/-! ### Indexing expressions -/

/-- Operands with their paths, the first of which is the child of the given number. -/
def operandsFrom (path : Path) : ℕ → List Expr → List (Path × Expr)
  | _, [] => []
  | i, e :: es => (i :: path, e) :: operandsFrom path (i + 1) es

@[simp]
theorem length_operandsFrom (path : Path) (i : ℕ) (es : List Expr) :
    (operandsFrom path i es).length = es.length := by
  induction es generalizing i with
  | nil => rfl
  | cons e es ih => exact congrArg (· + 1) (ih (i + 1))

theorem zip_operandsFrom (path : Path) (i : ℕ) (ds : List Int64) (es : List Expr) :
    (((List.range es.length).map (· + i)).zip (ds.zip es)).map
      (fun (j, extent, e) => (extent, (j + 1) :: path, e)) = ds.zip (operandsFrom path (i + 1) es) := by
  induction es generalizing ds i with
  | nil => simp [operandsFrom]
  | cons e es ih =>
    cases ds with
    | nil => simp
    | cons d ds =>
      have hshift : ((List.range es.length).map Nat.succ).map (· + i)
          = (List.range es.length).map (· + (i + 1)) := by
        rw [List.map_map]
        exact List.map_congr_left fun j _ => by simp; omega
      simp only [List.length_cons, List.range_succ_eq_map, List.map_cons, hshift,
        List.zip_cons_cons, operandsFrom, Nat.zero_add, ih (i + 1) ds]

theorem laterIndices_cons (path : Path) (d : Int64) (ds : List Int64) (e : Expr) (es : List Expr) :
    laterIndices path (d :: ds) (e :: es) = ds.zip (operandsFrom path 2 es) := by
  have hone := zip_operandsFrom path 1 ds es
  simp only [laterIndices, List.length_cons, List.range_succ_eq_map, List.zip_cons_cons, List.drop_one,
    List.tail_cons]
  exact hone

/-- An expression that indexes a root, in one step or in several: what stands before an index is an
array with a dimension for each of its operands, and the type is what they leave of it. The operands
are those of all steps, in their order. -/
inductive Indexing (rootPath : Path) (root : Expr) : Path → Expr → List (Path × Expr) → Prop
  | once {path : Path} {es : List Expr} : rootPath = 0 :: path → es ≠ [] →
    es.length ≤ root.type.dims.length →
    Indexing rootPath root path
      (.index root es ⟨root.type.base, root.type.dims.drop es.length⟩) (operandsFrom path 1 es)
  | again {path : Path} {base : Expr} {before : List (Path × Expr)} {es : List Expr} :
    Indexing rootPath root (0 :: path) base before → es ≠ [] →
    es.length ≤ base.type.dims.length →
    Indexing rootPath root path
      (.index base es ⟨base.type.base, base.type.dims.drop es.length⟩)
      (before ++ operandsFrom path 1 es)

theorem Indexing.type {rootPath path : Path} {root e : Expr} {operands : List (Path × Expr)}
    (h : Indexing rootPath root path e operands) :
    operands.length ≤ root.type.dims.length
      ∧ e.type = ⟨root.type.base, root.type.dims.drop operands.length⟩ := by
  induction h with
  | once _ _ hlen => exact ⟨by simpa using hlen, by rw [length_operandsFrom]; rfl⟩
  | again _ _ hlen ih =>
    obtain ⟨hle, htype⟩ := ih
    rw [List.length_append, length_operandsFrom, ← List.drop_drop]
    simp only [htype, List.length_drop] at hlen ⊢
    exact ⟨by omega, rfl⟩

theorem Indexing.of_complete {t : Table} {i : ℕ} {base e : Expr} {es : List Expr}
    (h : t.complete i (.index base es .void) = .ok e) (path : Path) :
    ∃ base' es', t.complete i base = .ok base' ∧ t.completeAll i es = .ok es'
      ∧ Indexing (0 :: path) base' path e (operandsFrom path 1 es')
      ∧ ∀ {rootPath root before}, Indexing rootPath root (0 :: path) base' before →
        Indexing rootPath root path e (before ++ operandsFrom path 1 es') := by
  obtain ⟨base', es', hbase, hes, hne, hlen, rfl⟩ := Table.complete_index.1 h
  exact ⟨base', es', hbase, hes, .once rfl hne hlen, fun hinner => .again hinner hne hlen⟩

/-! ### Values that are ready -/

/-- The scratch registers can be written, and are neither the stack pointer nor the zero register. -/
structure Scratch (c : Context) : Prop where
  writable : ∀ r ∈ c.general, r.Writable
  stack : c.sp ∉ c.general
  zero : c.nought ∉ c.general

theorem scratch_of_validate {c : Context} (hc : c.config.validate = .ok ())
    (h0 : 0 ∉ c.config.registers.general) : Scratch c := by
  have hgeneral := Registers.of_checkGeneral (Config.accepted_of_validate hc).general
  have hmem : ∀ n : Int64, (⟨n⟩ : Register) ∈ c.general → n ∈ c.config.registers.general := by
    intro n hn
    obtain ⟨m, hm, he⟩ := List.mem_map.1 hn
    cases he
    exact hm
  refine ⟨fun r hr => ?_, fun hm => ?_, fun hm => ?_⟩
  · obtain ⟨⟨hlow, hhigh⟩, -⟩ := hgeneral r.number (hmem _ hr)
    have hne : r.number ≠ 0 := fun he => h0 (he ▸ hmem _ hr)
    simp only [Register.Writable, Int64.lt_iff_toInt_lt, Int64.le_iff_toInt_le, ne_eq,
      ← Int64.toInt_inj] at *
    have h15 : (15 : Int64).toInt = 15 := by decide
    have h16 : (16 : Int64).toInt = 16 := by decide
    have hzero : (0 : Int64).toInt = 0 := by decide
    omega
  · exact (hgeneral _ (hmem _ hm)).2 (by simp [Registers.reserved])
  · exact (hgeneral _ (hmem _ hm)).2 (by simp [Registers.reserved])

/-- The operand was evaluated: its place, in a frame at a position, holds the value. -/
def HasValue (c : Context) (mem : Memory) (x : ℤ) (operand : Path × Expr) (v : Int32) : Prop :=
  ∃ p, Finds c (placeOf operand.1 operand.2) p ∧ PlaceInside mem x p ∧ placeValue mem x p = v

/-- The machine stands at code, in a frame at a position, and operands have been evaluated. -/
structure IndicesReady (c : Context) (site : Site) (a : ℕ) (code : Code) (m : Machine) (x : ℤ)
    (operands : List (Path × Expr)) (vs : List Int32) : Prop where
  code : site.Holds a code
  on : m.On site a
  zero : m.get c.nought = 0
  stack : m.get c.sp = Int32.ofInt x
  values : List.Forall₂ (HasValue c m.memory x) operands vs

/-- The code for operands, which are indices of what lies at a location, leads to another location. Its
address is given by that of the first one and by the values of the operands. -/
def Leads (c : Context) (operands : List (Path × Expr)) (code : Code) (b l : Location)
    (f : Int32 → List Int32 → Int32) : Prop :=
  ∀ ⦃site a m x vs⦄, IndicesReady c site a code m x operands vs →
    ∃ m', Computes site c.general m (a + Code.size code) m' ∧ m'.address l = f (m.address b) vs

section

variable {c : Context} (hscratch : Scratch c) {site : Site} {m : Machine} {a : ℕ} {x : ℤ}

include hscratch

theorem IndicesReady.after {b : ℕ} {m' : Machine} {code code' : Code} {os os' : List (Path × Expr)}
    {vs vs' : List Int32} {w : List Register} (h : IndicesReady c site a code m x os vs)
    (hrun : Computes site w m b m') (hw : ∀ r ∈ w, r ∈ c.general) (hcode : site.Holds b code')
    (hvs : List.Forall₂ (HasValue c m.memory x) os' vs') : IndicesReady c site b code' m' x os' vs' :=
  ⟨hcode, hrun.on, (hrun.get _ fun hm => hscratch.zero (hw _ hm)).trans h.zero,
    (hrun.get _ fun hm => hscratch.stack (hw _ hm)).trans h.stack, hrun.memory ▸ hvs⟩

/-! ### One step -/

omit hscratch in
theorem Loads.exec {r : Register} {p : Place} {code : Code} (h : Loads c r p 0 code)
    (hon : m.On site a) (hc : site.Holds a code) (hz : m.get c.nought = 0)
    (hs : m.get c.sp = Int32.ofInt x) (hp : PlaceInside m.memory x p) (hr : r.Writable) :
    ∃ m', Computes site [r] m (a + Code.size code) m' ∧ m'.get r = placeValue m.memory x p := by
  cases h with
  | immediate hconstant =>
    cases hconstant with
    | short => exact hon.exec_short hc hz hr
    | long => exact hon.exec_long hc hz hr
  | slot off =>
    simp only [plain, List.map, Int64.zero_mul, Int64.sub_zero, Site.holds_plain] at hc ⊢
    exact ⟨_, Computes.put hon (hon.exec_lw hc.1 hs hp) (by simp), get_put_self hr⟩

def Context.spare (c : Context) (held : List Register) : List Register :=
  c.general.filter (· ∉ held)

omit hscratch in
theorem Context.mem_spare {held : List Register} {r : Register} :
    r ∈ c.spare held ↔ r ∈ c.general ∧ r ∉ held := by simp [Context.spare]

/-- One index more: the position so far is multiplied by the dimension before the index is added. -/
theorem exec_addIndex {held : List Register} {idx r : Register} {d : Int64} {p : Place} {load : Code}
    {v : Int32} {n : ℤ} (hidx : idx ∈ c.spare held) (hr : r ∈ c.spare held) (hne : r ≠ idx)
    (hload : Loads c r p 0 load) (hon : m.On site a)
    (hcode : site.Holds a (plain [.imm .muli idx idx d] ++ (load ++ plain [.reg3 .add idx idx r])))
    (hz : m.get c.nought = 0) (hs : m.get c.sp = Int32.ofInt x) (hp : PlaceInside m.memory x p)
    (hv : placeValue m.memory x p = v) (hn : m.get idx = Int32.ofInt n) :
    ∃ m', Computes site (c.spare held) m
        (a + Code.size (plain [.imm .muli idx idx d] ++ (load ++ plain [.reg3 .add idx idx r]))) m'
      ∧ m'.get idx = Int32.ofInt (n * d.toInt + v.toInt) := by
  obtain ⟨hidxGeneral, -⟩ := Context.mem_spare.1 hidx
  have hwidx := hscratch.writable idx hidxGeneral
  simp only [plain, List.map, Site.holds_append, Site.holds_plain, Site.holds_nil] at hcode
  obtain ⟨⟨hmul, -⟩, hloadcode, hadd, -⟩ := hcode
  have e1 := hon.exec_imm (v := Int32.ofInt (n * d.toInt)) hmul rfl (by
    rw [hn, toInt32_eq_ofInt, Int32.ofInt_mul]
    rfl)
  have c1 : Computes site (c.spare held) m (a + 4) _ := Computes.put hon e1 hidx
  have hz₁ := (c1.get c.nought fun hm => hscratch.zero (Context.mem_spare.1 hm).1).trans hz
  have hs₁ := (c1.get c.sp fun hm => hscratch.stack (Context.mem_spare.1 hm).1).trans hs
  obtain ⟨m₂, c2, hv₂⟩ := hload.exec c1.on hloadcode hz₁ hs₁ (c1.memory ▸ hp)
    (hscratch.writable r (Context.mem_spare.1 hr).1)
  rw [c1.memory, hv] at hv₂
  have hidx₂ : m₂.get idx = Int32.ofInt (n * d.toInt) :=
    (c2.get idx (by simpa using hne.symm)).trans (get_put_self hwidx)
  have c12 := c1.trans (c2.mono fun q hq => (List.mem_singleton.1 hq) ▸ hr)
  have e3 := c2.on.exec_reg3 (v := Int32.ofInt (n * d.toInt + v.toInt)) hadd rfl (by
    rw [hidx₂, hv₂, Int32.ofInt_add, Int32.ofInt_toInt]
    rfl)
  have hend : a + 4 + Code.size load + 4
      = a + Code.size (plain [.imm .muli idx idx d] ++ (load ++ plain [.reg3 .add idx idx r])) := by
    simp only [plain, List.map, Code.size_append, Code.size_cons, Code.size_nil, Line.size,
      Item.size_imm, Item.size_reg3]
    omega
  exact ⟨_, hend ▸ c12.trans (Computes.put c2.on e3 hidx), get_put_self hwidx⟩

theorem exec_scaleIndex {held : List Register} {idx base : Register} {size : Int64} {n : ℤ}
    (hidx : idx ∈ c.spare held) (hbase : base ∉ c.spare held) (hon : m.On site a)
    (hcode : site.Holds a (plain [.imm .muli idx idx size, .reg3 .sub idx base idx]))
    (hn : m.get idx = Int32.ofInt n) :
    ∃ m', Computes site (c.spare held) m
        (a + Code.size (plain [.imm .muli idx idx size, .reg3 .sub idx base idx])) m'
      ∧ m'.get idx = m.get base - Int32.ofInt (size.toInt * n) := by
  have hwidx := hscratch.writable idx (Context.mem_spare.1 hidx).1
  simp only [plain, List.map, Site.holds_plain, Site.holds_nil] at hcode
  obtain ⟨hmul, hsub, -⟩ := hcode
  have e1 := hon.exec_imm (v := Int32.ofInt (size.toInt * n)) hmul rfl (by
    rw [hn, toInt32_eq_ofInt, Int.mul_comm, Int32.ofInt_mul]
    rfl)
  have c1 : Computes site (c.spare held) m (a + 4) _ := Computes.put hon e1 hidx
  have e2 := c1.on.exec_reg3 (v := m.get base - Int32.ofInt (size.toInt * n)) hsub rfl (by
    rw [get_put_self hwidx, c1.get _ hbase]
    rfl)
  exact ⟨_, c1.trans (Computes.put c1.on e2 hidx), get_put_self hwidx⟩

/-- The indices after the first follow the position row by row. -/
theorem Accumulates.exec {held : List Register} {idx : Register} (hidx : idx ∈ c.spare held)
    {os : List (Path × Expr)} {ds : List Int64} {vs : List Int32} {code : Code} {n : ℤ}
    (h : Accumulates c held idx (ds.zip os) code) (hlen : os.length ≤ ds.length)
    (hready : IndicesReady c site a code m x os vs) (hn : m.get idx = Int32.ofInt n) :
    ∃ m', Computes site (c.spare held) m (a + Code.size code) m'
      ∧ m'.get idx = Int32.ofInt (rowMajor n ds vs) := by
  induction os generalizing ds vs code m a n with
  | nil =>
    obtain ⟨hcode, hon, -, -, hvalues⟩ := hready
    cases hvalues
    rw [List.zip_nil_right] at h
    cases h
    exact ⟨m, .refl hon, by rw [rowMajor_nil, hn]⟩
  | cons o os ih =>
    cases ds with
    | nil => simp at hlen
    | cons d ds =>
      have hvalues := hready.values
      cases hvalues with
      | @cons _ v _ vs hv hrest =>
        obtain ⟨p, hp, hinside, hplace⟩ := hv
        rw [List.zip_cons_cons] at h
        cases h with
        | cons hr hne hp' hload hmore =>
          cases hp.unique hp'
          simp only [List.mem_cons, not_or] at hne
          have hcode := hready.code
          rw [Site.holds_append] at hcode
          obtain ⟨m₁, c1, hn₁⟩ := exec_addIndex hscratch hidx (Context.mem_spare.2 ⟨hr, hne.2⟩)
            hne.1 hload hready.on hcode.1 hready.zero hready.stack hinside hplace hn
          have hready₁ := hready.after hscratch c1 (fun q hq => (Context.mem_spare.1 hq).1)
            hcode.2 hrest
          obtain ⟨m₂, c2, hn₂⟩ := ih hmore (by simpa using hlen) hready₁ hn₁
          rw [Code.size_append, ← Nat.add_assoc]
          exact ⟨m₂, c1.trans c2, hn₂⟩

omit hscratch in
theorem Locates.base {path : Path} {e : Expr} {code : Code} {l : Location}
    (h : Locates c path e code l) : l.base ∈ l.regs ∨ l.base = c.sp := by
  induction h with
  | dot _ _ ih => exact ih
  | member | index => exact .inl (by simp [Location.regs])
  | «variable» | value => exact .inr rfl

/-- The code for the indices of one expression leads from any base to the element. -/
theorem leads_indices {path : Path} {b : Location} {idx : Register} {dims : List Int64}
    {es : List Expr} {size : Int64} {first rest : Code} (hb : b.base ∈ b.regs ∨ b.base = c.sp)
    (hgeneral : idx ∈ c.general) (hfree : idx ∉ b.regs) (hes : es ≠ [])
    (hlen : es.length ≤ dims.length) (hfirst : StartsIndex c path idx es first)
    (hrest : Accumulates c b.regs idx (laterIndices path dims es) rest) :
    Leads c (operandsFrom path 1 es)
      (first ++ rest ++ plain [.imm .muli idx idx size, .reg3 .sub idx b.base idx]) b
      ⟨idx, b.off, true⟩ fun x vs => elementAddress x size dims vs := by
  have hidx : idx ∈ c.spare b.regs := Context.mem_spare.2 ⟨hgeneral, hfree⟩
  have hbase : b.base ∉ c.spare b.regs := by
    rw [Context.mem_spare]
    rintro ⟨hmem, hnot⟩
    exact hb.elim hnot fun he => hscratch.stack (he ▸ hmem)
  have hsub : ∀ q ∈ c.spare b.regs, q ∈ c.general := fun q hq => (Context.mem_spare.1 hq).1
  cases hfirst with
  | nil => exact (hes rfl).elim
  | @cons e es p first hp hload =>
    cases dims with
    | nil => simp at hlen
    | cons d ds =>
      rw [laterIndices_cons] at hrest
      intro site a m x vs h
      have hvalues := h.values
      cases hvalues with
      | @cons _ v _ vs hv hvs =>
        obtain ⟨p', hp', hinside, hplace⟩ := hv
        cases hp.unique hp'
        have hcode := h.code
        rw [Site.holds_append, Site.holds_append] at hcode
        obtain ⟨⟨hfirstcode, hrestcode⟩, hscale⟩ := hcode
        obtain ⟨m₁, c1, hv₁⟩ :=
          hload.exec h.on hfirstcode h.zero h.stack hinside (hscratch.writable idx hgeneral)
        have c1' : Computes site (c.spare b.regs) m (a + Code.size first) m₁ :=
          c1.mono fun q hq => (List.mem_singleton.1 hq) ▸ hidx
        -- the first index has no rows before it
        have hv₁' : m₁.get idx = Int32.ofInt (0 * d.toInt + v.toInt) := by
          rw [hv₁, hplace, Int.zero_mul, Int.zero_add, Int32.ofInt_toInt]
        obtain ⟨m₂, c2, hv₂⟩ := hrest.exec hscratch hidx (by simpa using hlen)
          (h.after hscratch c1' hsub hrestcode hvs) hv₁'
        have c12 := c1'.trans c2
        rw [Nat.add_assoc, ← Code.size_append] at c12
        obtain ⟨m₃, c3, hv₃⟩ := exec_scaleIndex hscratch hidx hbase c12.on hscale hv₂
        rw [Code.size_append (first ++ rest), ← Nat.add_assoc]
        refine ⟨m₃, (c12.trans c3).mono hsub, ?_⟩
        simp only [address, elementAddress, hv₃, c12.get _ hbase, rowMajor_cons]
        grind

theorem leads_indexLocation {path : Path} {b l : Location} {dims : List Int64} {es : List Expr}
    {size : Int64} {k k' : Counts} {code : Code} (hb : b.base ∈ b.regs ∨ b.base = c.sp)
    (hk : Holds c.general b.regs k) (hes : es ≠ []) (hlen : es.length ≤ dims.length)
    (he : eval (indexLocation path b dims es size) c k = (.ok (code, l), k')) :
    Leads c (operandsFrom path 1 es) code b l fun x vs => elementAddress x size dims vs := by
  obtain ⟨⟨idx, hgeneral, hfree, first, rest, hfirst, hrest, heq⟩, -⟩ :=
    (shape_indexLocation path b dims es size hk).answer he
  obtain ⟨rfl, rfl⟩ := Prod.mk.inj heq
  exact leads_indices hscratch hb hgeneral hfree hes hlen hfirst hrest

/-! ### All steps -/

theorem Leads.trans {os os' : List (Path × Expr)} {code code' : Code} {b l l' : Location}
    {f g : Int32 → List Int32 → Int32} (h : Leads c os code b l f) (h' : Leads c os' code' l l' g) :
    Leads c (os ++ os') (code ++ code') b l' fun x vs =>
      g (f x (vs.take os.length)) (vs.drop os.length) := by
  intro site a m x vs hready
  have hcode := hready.code
  rw [Site.holds_append] at hcode
  have hfirst := (List.forall₂_take_append vs os os' hready.values.flip).flip
  have hrest := (List.forall₂_drop_append vs os os' hready.values.flip).flip
  obtain ⟨m₁, c1, haddr₁⟩ := h ⟨hcode.1, hready.on, hready.zero, hready.stack, hfirst⟩
  obtain ⟨m₂, c2, haddr₂⟩ := h' (hready.after hscratch c1 (fun _ hq => hq) hcode.2 hrest)
  refine ⟨m₂, ?_, by rw [haddr₂, haddr₁]⟩
  rw [Code.size_append, ← Nat.add_assoc]
  exact c1.trans c2

omit hscratch in
theorem Leads.congr {os : List (Path × Expr)} {code : Code} {b l : Location}
    {f g : Int32 → List Int32 → Int32} (h : Leads c os code b l f)
    (hfg : ∀ x vs, vs.length = os.length → f x vs = g x vs) : Leads c os code b l g := by
  intro site a m x vs hready
  obtain ⟨m', c', haddr⟩ := h hready
  exact ⟨m', c', haddr.trans (hfg _ _ hready.values.length_eq.symm)⟩

omit hscratch in
theorem eval_locate_index {path : Path} {base : Expr} {es : List Expr} {type : Ty} {k k' : Counts}
    {code : Code} {l : Location}
    (he : eval (locate path (.index base es type)) c k = (.ok (code, l), k')) :
    ∃ s before b k₁ own, c.layout.sizeOf type = .ok s
      ∧ eval (locate (0 :: path) base) c k = (.ok (before, b), k₁)
      ∧ eval (indexLocation path b base.type.dims es (wordOfSize s)) c k₁ = (.ok (own, l), k')
      ∧ code = before ++ own := by
  rw [locate, eval_bind_ok (eval_read c k)] at he
  obtain ⟨s, k₀, hs, he⟩ := eval_bind_eq_ok.1 he
  rw [eval_lift] at hs
  obtain ⟨hsize, rfl⟩ := Prod.mk.inj hs
  obtain ⟨⟨before, b⟩, k₁, hbase, he⟩ := eval_bind_eq_ok.1 he
  obtain ⟨⟨own, l'⟩, k₂, hown, he⟩ := eval_bind_eq_ok.1 he
  cases he
  exact ⟨s, before, b, k₁, own, hsize, hbase, hown, rfl⟩

/-- The code for all steps follows that for the root, and leads to the row-major position of the
element. -/
theorem Indexing.leads {rootPath path : Path} {root e : Expr} {os : List (Path × Expr)} {n : Int64}
    (hn : c.layout.table.elementSize c.layout.sizes root.type = .ok (some n))
    (h : Indexing rootPath root path e os) {k k' : Counts} {code : Code} {l : Location}
    (hk : Holds c.general [] k) (he : eval (locate path e) c k = (.ok (code, l), k')) :
    ∃ s before b k₁ own, c.layout.sizeOf e.type = .ok s
      ∧ eval (locate rootPath root) c k = (.ok (before, b), k₁) ∧ code = before ++ own
      ∧ Leads c os own b l fun x vs => elementAddress x (wordOfSize s) root.type.dims vs := by
  induction h generalizing code l k' with
  | once hpath hes hlen =>
    obtain ⟨s, before, b, k₁, own, hs, hroot, hown, rfl⟩ := eval_locate_index he
    obtain ⟨hshape, hk₁⟩ := (shape_locate _ root hk).answer hroot
    exact ⟨s, before, b, k₁, own, hs, hpath ▸ hroot, rfl,
      leads_indexLocation hscratch hshape.base hk₁ hes hlen hown⟩
  | @again path base os es hbase hes hlen ih =>
    obtain ⟨s, before, b, k₁, own, hs, hinner, hown, rfl⟩ := eval_locate_index he
    obtain ⟨hshape, hk₁⟩ := (shape_locate _ base hk).answer hinner
    obtain ⟨s', before', b', k₁', own', hs', hroot, rfl, hleads⟩ := ih hinner
    refine ⟨s, before', b', k₁', own' ++ own, hs, hroot, List.append_assoc .., ?_⟩
    have hstep := leads_indexLocation hscratch hshape.base hk₁ hes hlen hown
    refine (hleads.trans hscratch hstep).congr fun x vs hvs => ?_
    obtain ⟨hle, htype⟩ := hbase.type
    rw [htype] at hlen hs hs'
    have hpart : c.layout.table.elementSize c.layout.sizes
        ⟨root.type.base, root.type.dims.drop os.length⟩ = .ok (some n) :=
      Table.elementSize_of_base hn rfl
    rw [List.length_append, length_operandsFrom] at hvs
    have htake : (vs.take os.length).length = os.length := by
      rw [List.length_take]
      omega
    have hsize := Table.toInt32_sizeOf_drop (k := es.length) hpart hs' hs
    have hdrop : (vs.drop os.length).length = es.length := by
      rw [List.length_drop]
      omega
    have happend := elementAddress_append x (vs.take os.length) (vs.drop os.length)
      (htake.le.trans hle) (by rw [htake, hdrop]; exact hsize)
    rw [htake, List.take_append_drop] at happend
    rw [← happend, htype]

/-- An expression is located from where its root is: after the code for the root, which leads to `b`,
stands code that leads to `l`. -/
def LocatedFrom (c : Context) (k : Counts) (rootPath : Path) (root : Expr) (path : Path) (e : Expr)
    (b : Location) (own : Code) (l : Location) : Prop :=
  ∃ before k₁ k', eval (locate rootPath root) c k = (.ok (before, b), k₁)
    ∧ eval (locate path e) c k = (.ok (before ++ own, l), k')

variable {rootPath path : Path} {root e : Expr} {os : List (Path × Expr)} {k : Counts}
  {b l : Location} {own : Code}

omit hscratch in
theorem Indexing.exists_locatedFrom (h : Indexing rootPath root path e os) {k' : Counts} {code : Code}
    (he : eval (locate path e) c k = (.ok (code, l), k')) :
    ∃ b own, LocatedFrom c k rootPath root path e b own l := by
  induction h generalizing code l k' with
  | once hpath =>
    obtain ⟨-, before, b, k₁, own, -, hroot, -, rfl⟩ := eval_locate_index he
    exact ⟨b, own, before, k₁, k', hpath ▸ hroot, he⟩
  | again _ _ _ ih =>
    obtain ⟨-, before, b, k₁, own, -, hinner, -, rfl⟩ := eval_locate_index he
    obtain ⟨b', own', before', k₂, k₃, hroot, hinner'⟩ := ih hinner
    cases hinner.symm.trans hinner'
    rw [List.append_assoc] at he
    exact ⟨b', own' ++ own, before', k₂, k', hroot, he⟩

theorem Indexing.leads_of_locatedFrom {size : Int64} (h : Indexing rootPath root path e os)
    (hk : Holds c.general [] k) (hown : LocatedFrom c k rootPath root path e b own l)
    (hsize : c.layout.sizeOf e.type = .ok (some size)) :
    Leads c os own b l fun x vs => elementAddress x size root.type.dims vs := by
  obtain ⟨before, k₁, k', hroot, he⟩ := hown
  obtain ⟨n, hn⟩ := Table.exists_elementSize hsize
  have hbase : c.layout.table.elementSize c.layout.sizes root.type = .ok (some n) :=
    Table.elementSize_of_base hn (by rw [h.type.2])
  obtain ⟨s, before', b', k₁', own', hs, hroot', hsplit, hleads⟩ := h.leads hscratch hbase hk he
  cases hsize.symm.trans hs
  cases hroot.symm.trans hroot'
  cases List.append_cancel_left hsplit
  exact hleads

end

/-- Array addressing. The code for indices leads from a base of any address to the row-major position
of the element; the address is the same whether the indices are taken in one expression or in several;
and in an array of less than `2 ^ 31` bytes the elements lie inside the array, those of different
indices apart from each other. -/
theorem locate_rowMajor {c : Context} (hc : c.config.validate = .ok ())
    (h0 : 0 ∉ c.config.registers.general) {k : Counts} (hk : Holds c.general [] k) (root : Expr) :
    (∀ {rootPath path e os code l k'}, Indexing rootPath root path e os →
        eval (locate path e) c k = (.ok (code, l), k') →
        ∃ b own, LocatedFrom c k rootPath root path e b own l)
      ∧ (∀ {rootPath path e os b own l} {size : Int64}, Indexing rootPath root path e os →
        LocatedFrom c k rootPath root path e b own l → c.layout.sizeOf e.type = .ok (some size) →
        Leads c os own b l fun x vs => elementAddress x size root.type.dims vs)
      ∧ (∀ {rootPath path e os b own l rootPath' path' e' os' b' own' l'} {size : Int64},
        Indexing rootPath root path e os → LocatedFrom c k rootPath root path e b own l →
        Indexing rootPath' root path' e' os' → LocatedFrom c k rootPath' root path' e' b' own' l' →
        c.layout.sizeOf e.type = .ok (some size) →
        ∀ {site a m x site' a' m' x' vs}, IndicesReady c site a own m x os vs →
        IndicesReady c site' a' own' m' x' os' vs → m.address b = m'.address b' →
        ∃ n n', Computes site c.general m (a + Code.size own) n
          ∧ Computes site' c.general m' (a' + Code.size own') n' ∧ n.address l = n'.address l')
      ∧ ∀ {total : ℤ}, c.layout.table.Takes c.layout.sizes root.type total → total < 2 ^ 31 →
        ∀ (b : Int32) {vs : List Int32}, InRange root.type.dims vs →
        ∃ size, c.layout.sizeOf ⟨root.type.base, root.type.dims.drop vs.length⟩ = .ok (some size)
          ∧ bytesAt c.word (elementAddress b size root.type.dims vs) size.toInt
            ⊆ bytesAt c.word b total
          ∧ ∀ ws, InRange root.type.dims ws → ws.length = vs.length → ws ≠ vs →
            Disjoint (bytesAt c.word (elementAddress b size root.type.dims vs) size.toInt)
              (bytesAt c.word (elementAddress b size root.type.dims ws) size.toInt) := by
  have hscratch := scratch_of_validate hc h0
  refine ⟨fun h he => h.exists_locatedFrom he,
    fun h hown hsize => h.leads_of_locatedFrom hscratch hk hown hsize, ?_,
    fun htakes hsmall b _ hv => htakes.apart hsmall c.word b hv⟩
  intro rootPath path e os b own l rootPath' path' e' os' b' own' l' size h hown h' hown' hsize
    site a m x site' a' m' x' vs hready hready' hsame
  -- as many indices leave the same type
  have htype : e'.type = e.type := by
    rw [h.type.2, h'.type.2, hready.values.length_eq, hready'.values.length_eq]
  obtain ⟨n, hrun, haddr⟩ := h.leads_of_locatedFrom hscratch hk hown hsize hready
  obtain ⟨n', hrun', haddr'⟩ :=
    h'.leads_of_locatedFrom hscratch hk hown' (by rw [htype]; exact hsize) hready'
  exact ⟨n, n', hrun, hrun', by rw [haddr, haddr', hsame]⟩

/-! ### A matrix

The element in row 1 and column 2 of a matrix of two rows and three columns, whose base is at 100. -/

def matrixContext : Context :=
  let matrix : Entry := ⟨.localVar, "m", ⟨.integer, [2, 3]⟩, none, some 24, some 0⟩
  let scope : Scope :=
    { name := "main", owner := .function, parent := none, backing := .expr [] .missing,
      entries := [matrix] }
  { config := {}, layout := { table := ⟨⟨[], []⟩, scope, [], [scope]⟩, sizes := {}, entryName := "main" },
    tags := [], index := 0, head := ⟨"main", "", false, [], ⟨.void, []⟩⟩, scope := scope,
    exit := "end" }

def matrix : Expr := .var "m" ⟨.integer, [2, 3]⟩

/-- `m[1][2]` as one expression with two indices. -/
def elementOnce : Expr := .index matrix [.int 1, .int 2] ⟨.integer, []⟩

/-- `m[1][2]` as an index of a row. -/
def elementAgain : Expr := .index (.index matrix [.int 1] ⟨.integer, [3]⟩) [.int 2] ⟨.integer, []⟩

def onceCode : Code :=
  plain [.imm .addi ⟨1⟩ ⟨0⟩ 1, .imm .muli ⟨1⟩ ⟨1⟩ 3, .imm .addi ⟨2⟩ ⟨0⟩ 2, .reg3 .add ⟨1⟩ ⟨1⟩ ⟨2⟩,
    .imm .muli ⟨1⟩ ⟨1⟩ 4, .reg3 .sub ⟨1⟩ ⟨14⟩ ⟨1⟩]

def againCode : Code :=
  plain [.imm .addi ⟨1⟩ ⟨0⟩ 1, .imm .muli ⟨1⟩ ⟨1⟩ 12, .reg3 .sub ⟨1⟩ ⟨14⟩ ⟨1⟩, .imm .addi ⟨2⟩ ⟨0⟩ 2,
    .imm .muli ⟨2⟩ ⟨2⟩ 4, .reg3 .sub ⟨2⟩ ⟨1⟩ ⟨2⟩]

theorem eval_locate_once : ∃ k', eval (locate [] elementOnce) matrixContext (startCounts {})
    = (.ok (onceCode, ⟨⟨1⟩, 0, true⟩), k') := ⟨_, Prod.ext (by cbv) rfl⟩

theorem eval_locate_again : ∃ k', eval (locate [] elementAgain) matrixContext (startCounts {})
    = (.ok (againCode, ⟨⟨2⟩, 0, true⟩), k') := ⟨_, Prod.ext (by cbv) rfl⟩

def matrixMachine (image : Image) : Machine :=
  { regs := Machine.stackAt 100
    pc := 0
    memory := .ofData #[] 0
    image := image
    runtime := {} }

theorem indicesReady_matrix (code : Code) {os : List (Path × Expr)} (hread : ∀ l ∈ code, l.Readable)
    (hlabels : ((labelsFrom 0 code).map Prod.fst).Nodup)
    (hknown : ∀ l ∈ code, l.Known (code.names (Runtime.symbols {})))
    (hwords : ∀ l ∈ code, l.size % 4 = 0)
    (hentry : code.countP (fun l => l.item? == some .entry) ≤ 1) (hsize : Code.size code = 24)
    (hvalues : List.Forall₂ (HasValue matrixContext (.ofData #[] 0) 100) os [1, 2]) :
    ∃ image, Assembly.assemble (Code.text code) (Runtime.symbols {}) = .ok image
      ∧ IndicesReady matrixContext ⟨image, {}, code.names (Runtime.symbols {})⟩ 0 code
        (matrixMachine image) 100 os [1, 2] := by
  have hnames : ∀ e ∈ Runtime.symbols {}, Assembly.isIdentifier e.1.toList = true := by
    decide
  obtain ⟨image, himage⟩ := Code.exists_assemble hread hnames hlabels hknown hwords hentry
  refine ⟨image, himage, Code.holds_of_assemble hread hnames himage (by omega) ?_,
    ⟨rfl, rfl, rfl, rfl⟩, rfl, rfl, hvalues⟩
  rw [hsize]
  decide

theorem locate_rowMajor_matrix : ∃ image image' n n',
    Assembly.assemble (Code.text onceCode) (Runtime.symbols {}) = .ok image
      ∧ Assembly.assemble (Code.text againCode) (Runtime.symbols {}) = .ok image'
      ∧ (matrixMachine image).Exec n ∧ n.address ⟨⟨1⟩, 0, true⟩ = 80
      ∧ (matrixMachine image').Exec n' ∧ n'.address ⟨⟨2⟩, 0, true⟩ = 80 := by
  have hk : Holds matrixContext.general [] (startCounts {}) := holds_startCounts (by decide)
  obtain ⟨-, hleads, -⟩ :=
    @locate_rowMajor matrixContext (by decide) (by decide) (startCounts {}) hk matrix
  have honce : Indexing [0] matrix [] elementOnce [([1], .int 1), ([2], .int 2)] :=
    .once rfl (List.cons_ne_nil _ _) (by decide)
  have hagain : Indexing [0, 0] matrix [] elementAgain [([1, 0], .int 1), ([1], .int 2)] :=
    .again (.once rfl (List.cons_ne_nil _ _) (by decide)) (List.cons_ne_nil _ _) (by decide)
  have hvalues : ∀ path path', List.Forall₂ (HasValue matrixContext (.ofData #[] 0) 100)
      [(path, .int 1), (path', .int 2)] [1, 2] := fun _ _ =>
    .cons ⟨.immediate 1, fun _ => rfl, trivial, rfl⟩
      (.cons ⟨.immediate 2, fun _ => rfl, trivial, rfl⟩ .nil)
  obtain ⟨k', hevalOnce⟩ := eval_locate_once
  obtain ⟨k'', hevalAgain⟩ := eval_locate_again
  have hroot : ∀ path, eval (locate path matrix) matrixContext (startCounts {})
      = (.ok ([], ⟨⟨14⟩, 0, false⟩), startCounts {}) := fun _ => Prod.ext (by cbv) rfl
  have hfromOnce : LocatedFrom matrixContext (startCounts {}) [0] matrix [] elementOnce
      ⟨⟨14⟩, 0, false⟩ onceCode ⟨⟨1⟩, 0, true⟩ := ⟨[], _, _, hroot [0], hevalOnce⟩
  have hfromAgain : LocatedFrom matrixContext (startCounts {}) [0, 0] matrix [] elementAgain
      ⟨⟨14⟩, 0, false⟩ againCode ⟨⟨2⟩, 0, true⟩ := ⟨[], _, _, hroot [0, 0], hevalAgain⟩
  obtain ⟨image, himage, hready⟩ := indicesReady_matrix onceCode (by decide)
    (by decide) (by decide) (by decide) (by decide)
    (by decide) (hvalues [1] [2])
  obtain ⟨image', himage', hready'⟩ := indicesReady_matrix againCode (by decide)
    (by decide) (by decide) (by decide) (by decide)
    (by decide) (hvalues [1, 0] [1])
  have hsize : matrixContext.layout.sizeOf (Expr.type elementOnce) = .ok (some 4) := rfl
  obtain ⟨n, hrun, haddr⟩ := hleads honce hfromOnce hsize hready
  obtain ⟨n', hrun', haddr'⟩ := hleads hagain hfromAgain hsize hready'
  have hbase : ∀ image, (matrixMachine image).address ⟨⟨14⟩, 0, false⟩ = 100 := fun _ => rfl
  have hvalue : elementAddress 100 4 matrix.type.dims [1, 2] = 80 := by decide
  simp only [hbase, hvalue] at haddr haddr'
  exact ⟨image, image', n, n', himage, himage', hrun.exec, haddr, hrun'.exec, haddr'⟩

end Emit

end MoonBackend
