import MoonBackend.Proofs.Emit.Confinement
import MoonBackend.Proofs.Emit.Entering

/-!
# Returning from a called function

What a routine does around its body: it saves the return address when it is entered, and after its body
it points to its result and goes back to that address. There the caller moves its stack pointer back and
copies the words of the result to the slot of the call.
-/

namespace MoonBackend

open Layout Machine Code

theorem FrameIn.below {mem : Memory} {x n k : ℤ} (h : FrameIn mem x (n + k)) (hn : 0 ≤ n) :
    FrameIn mem (x - n) k :=
  ⟨by have := h.low; omega, by have := h.high; omega, h.small⟩

namespace Emit

variable {p : Program} {c : Context} {site : Site} {a entry stop ra : ℕ} {m : Machine} {x y : ℤ}
  {path : Path} {e : Expr} {code : Code} {tag : String} {f : MoonBackend.Function}

theorem Fitted.result_eq (h : Fitted p c) : c.result = ⟨13⟩ := by
  rw [Context.result, h.stock]

/-! ### Around the body of a routine -/

/-- A routine stands at an address, and the end of its body at another one. -/
structure RoutineAt (c : Context) (site : Site) (f : MoonBackend.Function) (entry stop : ℕ) : Prop where
  saves : ∃ off, Finds c (ownSlot .returnAddress) off ∧ site.HoldsItem entry (.sw off c.sp c.link)
  leaves : ∃ off result, Finds c (ownSlot .returnAddress) off ∧ PointsToResult c f.returns result
    ∧ site.HoldsItem stop (.bare .nop)
    ∧ site.Holds (stop + 4) (result ++ plain [.lw c.link off c.sp, .reg1 .jr c.link])

theorem Function.routineAt (hf : Function c tag f code)
    (hfree : f.isFree c.config.emit.entryFunction = false) (hcode : site.Holds a code) :
    site.names.address? tag = some (Int32.ofNat a)
      ∧ ∃ stop, site.names.address? c.exit = some (Int32.ofNat stop) ∧ RoutineAt c site f a stop := by
  cases hf with
  | entry he => exact absurd (he.symm.trans hfree) (by decide)
  | @routine off body result _ hoff _ hresult =>
    simp only [Site.holds_append, Code.size_append, size_note, Site.holds_labeled, mark,
      Site.holds_nil, and_true, Nat.add_zero] at hcode
    obtain ⟨⟨⟨⟨-, htag, hsave⟩, -⟩, hexit, hnop⟩, hresultcode, hback⟩ := hcode
    refine ⟨htag, _, hexit, ⟨off, hoff, hsave⟩, off, result, hoff, hresult, hnop, ?_⟩
    rw [Site.holds_append]
    exact ⟨hresultcode, hback⟩

/-- A routine that is entered saves the return address in its slot. -/
theorem RoutineAt.exec_entry (hr : RoutineAt c site f entry stop) (h : Fitted p c)
    (hon : m.On site entry) (hstack : m.get c.sp = Int32.ofInt y)
    (hin : FrameIn m.memory y c.frameBytes) :
    ∃ off m', Finds c (ownSlot .returnAddress) off
      ∧ Reaches site [] m (entry + 4) (m.memory.setWord (y + off.toInt) (m.get c.link)) m' := by
  obtain ⟨off, hoff, hcode⟩ := hr.saves
  have e1 := hon.exec_sw hcode hstack (hin.inside (h.ownAddress_within rfl hoff))
  exact ⟨off, _, hoff, Reaches.poke hon e1⟩

theorem PointsToResult.exec {returns : Ty} (hp : PointsToResult c returns code) (h : Fitted p c)
    (hon : m.On site a) (hcode : site.Holds a code) (hstack : m.get c.sp = Int32.ofInt y) :
    ∃ m', Computes site [c.result] m (a + Code.size code) m' ∧ (returns.base ≠ .void →
      ∃ off, Finds c (ownSlot .returnValue) off ∧ m'.get c.result = Int32.ofInt (y + off.toInt)) := by
  cases hp with
  | none hvoid => exact ⟨m, .refl hon, fun hv => absurd hvoid hv⟩
  | some _ hoff =>
    have hw : c.result.Writable := by
      rw [h.result_eq]
      decide
    simp only [plain, List.map, Site.holds_plain, Site.holds_nil, and_true] at hcode
    obtain ⟨m', c1, hget⟩ := exec_addOffset hon hw hcode
    refine ⟨m', c1, fun _ => ⟨_, hoff, ?_⟩⟩
    rw [hget, hstack, toInt32_eq_ofInt, ← Int32.ofInt_add]

/-- After its body a routine goes back to the saved return address, with the address of its result. -/
theorem RoutineAt.exec_stop (hr : RoutineAt c site f entry stop) (h : Fitted p c)
    (hon : m.On site stop) (hstack : m.get c.sp = Int32.ofInt y)
    (hin : FrameIn m.memory y c.frameBytes)
    (hra : ∀ off, Finds c (ownSlot .returnAddress) off →
      m.memory.word (y + off.toInt) = Int32.ofNat ra) :
    ∃ m', Computes site [c.result, c.link] m ra m' ∧ (f.returns.base ≠ .void →
      ∃ off, Finds c (ownSlot .returnValue) off ∧ m'.get c.result = Int32.ofInt (y + off.toInt)) := by
  obtain ⟨off, result, hoff, hresult, hnop, hcode⟩ := hr.leaves
  simp only [plain, List.map, Site.holds_append, Site.holds_plain, Site.holds_nil, and_true] at hcode
  obtain ⟨hresultcode, hload, hjump⟩ := hcode
  have hwlink : c.link.Writable := by
    rw [h.link_eq]
    decide
  have hsp : c.sp ∉ [c.result, c.link] := by
    rw [h.sp_eq, h.result_eq, h.link_eq]
    decide
  have hne : c.result ≠ c.link := by
    rw [h.result_eq, h.link_eq]
    decide
  have c0 : Computes site [c.result, c.link] m (stop + 4) _ := .goto hon (hon.exec_nop hnop)
  obtain ⟨m₁, c1, hget⟩ := hresult.exec h c0.on hresultcode ((c0.get _ hsp).trans hstack)
  have c1 := c0.trans (c1.mono (by simp))
  have e2 := c1.on.exec_lw hload ((c1.get _ hsp).trans hstack) (by
    rw [c1.memory]
    exact hin.inside (h.ownAddress_within rfl hoff))
  rw [c1.memory, hra off hoff] at e2
  have c2 := c1.trans (Computes.put c1.on e2 (by simp))
  have e3 := c2.on.exec_jr hjump
  rw [get_put_self hwlink] at e3
  refine ⟨_, c2.trans (.goto c2.on e3), fun hv => ?_⟩
  obtain ⟨o, ho, hvalue⟩ := hget hv
  exact ⟨o, ho, by rw [get_goto, get_put_of_ne hne, hvalue]⟩

/-! ### Back in the caller -/

/-- The slot of a call that has a result holds the words found from a position downwards, and every
other byte is as it was. -/
structure Fetched (c : Context) (x y : ℤ) (path : Path) (e : Expr) (isNew : Bool)
    (callee : Signature) (mem mem' : Memory) : Prop where
  size : mem'.size = mem.size
  words : isNew = false → callee.returns.base ≠ .void →
    ∃ slot, c.scope.requireSlot (.expr path e) .temporary = .ok slot
      ∧ c.Takes callee.returns (bytesOf slot.size)
      ∧ slot.wordsIn mem' x = mem.wordsAt y (bytesOf slot.size / 4).toNat
  frame : ∀ z, 0 ≤ z → (isNew = false → callee.returns.base ≠ .void →
    ∀ slot, c.scope.requireSlot (.expr path e) .temporary = .ok slot →
      z < x + (slot.offset.getD 0).toInt - bytesOf slot.size + 4
        ∨ x + (slot.offset.getD 0).toInt + 4 ≤ z) → mem'.byte z = mem.byte z

theorem FetchesResult.exec {isNew : Bool} {callee : Signature}
    (hf : FetchesResult c path e isNew callee code) (h : Fitted p c)
    (hb : isNew = false → callee.returns.base ≠ .void → Backed c.scope [Demand.temporary path e])
    (htype : isNew = false → e.type = callee.returns)
    (hat : AtCode c site a code m x) (hin : FrameIn m.memory x c.frameBytes)
    (hy : callee.returns.base ≠ .void → m.get c.result = Int32.ofInt y
      ∧ y ≤ x - c.frameBytes ∧ ∀ n, c.Takes callee.returns n → FrameIn m.memory y n) :
    ∃ mem m', Reaches site c.general m (a + Code.size code) mem m'
      ∧ Fetched c x y path e isNew callee m.memory mem := by
  cases hf with
  | none hnone =>
    refine ⟨m.memory, m, .of_computes (.refl hat.on), rfl, fun hnew hv => ?_, fun _ _ _ => rfl⟩
    rcases hnone with hnone | hnone
    · exact absurd (hnone.symm.trans hnew) (by decide)
    · exact absurd hnone hv
  | @some off n r hnew hv hoff hn hr =>
    obtain ⟨hget, hbelow, htakes⟩ := hy hv
    have hback := hb hnew hv
    obtain ⟨slot, hslot, o, hkind, htype', hoffset, hreq, ho, hfind⟩ := h.slot hback
    obtain rfl := hoff.unique hfind
    have hkind : slot.kind.isAddress = false := hkind ▸ rfl
    have hreturns : slot.type = callee.returns := htype'.trans (htype hnew)
    have hslottakes := h.takes_of_mem h.scope hslot hkind
    rw [hreturns] at hslottakes
    have hwithin : Within c.frameBytes (bytesOf slot.size) off := (h.entry_within h.scope hslot ho).1
    obtain ⟨hwords, hpos, -⟩ := h.words_eq hslottakes hn
    have hcount : 4 * (n.toNatClampNeg : ℤ) = bytesOf slot.size := by
      rw [← Int64.toNat_toInt]
      omega
    have hbytes := hslottakes
    rw [← hcount] at hslottakes hwithin
    have hzero : Within (4 * (n.toNatClampNeg : ℤ)) (4 * n.toNatClampNeg) 0 := ⟨le_rfl, by simp⟩
    have hresult : r ≠ c.result := by
      rintro rfl
      rw [h.result_eq, Context.general, h.stock] at hr
      exact absurd hr (by decide)
    have hstack : r ≠ c.sp := fun he => h.scratch.stack (he ▸ hr)
    have hcode : copyCode c.word r (c.slot off) ⟨c.result, 0, false⟩ n
        = copyWords r (c.slot off) ⟨c.result, 0, false⟩ n.toNatClampNeg := by
      rw [h.word_eq]
      rfl
    rw [hcode] at hat ⊢
    obtain ⟨mem, m', hrun, hputs⟩ := exec_copyWords (h.scratch.writable r hr) hstack hresult hat.on
      hat.code hat.stack hget (descends_of_within hwithin c.frameBytes_lt)
      (descends_of_within hzero hslottakes.lt) (FrameIn.words hin hwithin)
      (FrameIn.words (htakes _ hslottakes) hzero) (.inr (by
        obtain ⟨h0, h1⟩ := hwithin
        have hzero : (0 : Int64).toInt = 0 := rfl
        show y + (0 : Int64).toInt + 4 ≤ x + off.toInt - 4 * n.toNatClampNeg + 4
        omega))
    have hoff' : (slot.offset.getD 0).toInt = off.toInt := by rw [hoffset]; rfl
    have hnat : (bytesOf slot.size / 4).toNat = n.toNatClampNeg := by omega
    have hlen := Memory.length_wordsAt m.memory y n.toNatClampNeg
    have hput : m.memory.Puts mem (x + off.toInt) (m.memory.wordsAt y n.toNatClampNeg) := by
      simpa [Context.slot] using hputs
    refine ⟨mem, m', hrun.mono fun q hq => (List.mem_singleton.1 hq) ▸ hr, hput.size,
      fun _ _ => ⟨slot, hreq, hbytes, ?_⟩, fun z hz hout => ?_⟩
    · have hwords := hput.words
      rw [hlen] at hwords
      rw [Entry.wordsIn, hoff', hnat, hwords]
    · have hz' := hout hnew hv slot hreq
      rw [hoff', ← hcount] at hz'
      exact hput.frame z hz (by rw [hlen]; exact hz')

structure Resumed (c : Context) (site : Site) (x : ℤ) (path : Path) (e : Expr) (isNew : Bool) (k : ℕ)
    (callee : Signature) (scope : Scope) (b : ℕ) (m m' : Machine) : Prop where
  exec : m.Exec m'
  on : m'.On site b
  stack : m'.get c.sp = Int32.ofInt x
  result : isNew = false → callee.returns.base ≠ .void →
    ∃ slot value, c.scope.requireSlot (.expr path e) .temporary = .ok slot
      ∧ scope.requireSlot (.function k callee) .returnValue = .ok value
      ∧ slot.wordsIn m'.memory x = value.wordsIn m.memory (x - c.frameBytes)
  /-- Apart from the slot of the call, nothing changes in memory. -/
  kept : ∀ z, 0 ≤ z → (isNew = false → callee.returns.base ≠ .void →
    ∀ slot, c.scope.requireSlot (.expr path e) .temporary = .ok slot →
      z < x + (slot.offset.getD 0).toInt - bytesOf slot.size + 4
        ∨ x + (slot.offset.getD 0).toInt + 4 ≤ z) → m'.memory.byte z = m.memory.byte z
  size : m'.memory.size = m.memory.size
  registers : ∀ q, q ∉ c.general → q ≠ c.sp → q ≠ c.link → q ≠ c.result → m'.get q = m.get q
  input : m'.input = m.input
  output : m'.output = m.output

theorem Fitted.resultSlot (h : Fitted p c) {off : Int64} (hv : c.head.returns.base ≠ .void)
    (hf : Finds c (ownSlot .returnValue) off) :
    ∃ value, c.scope.requireSlot (.function c.index c.head) .returnValue = .ok value
      ∧ value.offset = some off ∧ c.Takes c.head.returns (bytesOf value.size)
      ∧ Within c.frameBytes (bytesOf value.size) off := by
  have hb := h.headSlots
  rw [Demand.ofHead, backed_append, backed_append, if_neg hv] at hb
  obtain ⟨value, hmem, o, hkind, htype, hoffset, hreq, ho, hfind⟩ := h.slot hb.1.2
  obtain rfl := (Fitted.slotOffset_of_ownSlot hf).unique hfind
  have htype : value.type = c.head.returns := htype
  exact ⟨value, hreq, hoffset, htype ▸ h.takes_of_mem h.scope hmem (hkind ▸ rfl),
    (h.entry_within h.scope hmem ho).1⟩

/-- From the end of the body of a routine to the end of the calling sequence. -/
theorem RoutineAt.resumes {c' : Context} {isNew : Bool} {size : Int64} {fetch : Code}
    (hr : RoutineAt c' site f entry stop) (h : Fitted p c) (h' : Fitted p c')
    (hlayout : c'.layout = c.layout) (hhead : c'.head = f.toSignature)
    (hsize : size.toInt = c.frameBytes)
    (hf : FetchesResult c path e isNew f.toSignature fetch)
    (hb : isNew = false → f.returns.base ≠ .void → Backed c.scope [Demand.temporary path e])
    (htype : isNew = false → e.type = f.returns)
    (hcode : site.Holds ra (plain [.imm .addi c.sp c.sp size] ++ fetch))
    (hon : m.On site stop) (hzero : m.get c.nought = 0)
    (hstack : m.get c.sp = Int32.ofInt (x - c.frameBytes))
    (hin : FrameIn m.memory x (c.frameBytes + c'.frameBytes))
    (hra : ∀ off, Finds c' (ownSlot .returnAddress) off →
      m.memory.word (x - c.frameBytes + off.toInt) = Int32.ofNat ra) :
    ∃ m', Resumed c site x path e isNew c'.index f.toSignature c'.scope
      (ra + Code.size (plain [.imm .addi c.sp c.sp size] ++ fetch)) m m' := by
  have hnn := h.frameBytes_nonneg
  have hnn' := h'.frameBytes_nonneg
  have hsp : c'.sp = c.sp := by rw [h.sp_eq, h'.sp_eq]
  have hresult : c'.result = c.result := by rw [h.result_eq, h'.result_eq]
  have hlink : c'.link = c.link := by rw [h.link_eq, h'.link_eq]
  obtain ⟨m₁, c1, hvalue⟩ := hr.exec_stop h' hon (hsp ▸ hstack) (hin.below hnn) hra
  rw [hresult, hlink] at c1
  rw [hresult] at hvalue
  have hone : c.sp ∉ [c.result, c.link] ∧ c.nought ∉ [c.result, c.link] ∧ c.nought ≠ c.sp
      ∧ c.result ≠ c.sp ∧ c.sp.Writable := by
    rw [h.sp_eq, h.result_eq, h.link_eq, Context.nought, h.stock]
    decide
  obtain ⟨hspOut, hnoughtOut, hnoughtSp, hresultSp, hwsp⟩ := hone
  -- the stack pointer moves back
  rw [Site.holds_append] at hcode
  obtain ⟨hmove, hfetch⟩ := hcode
  simp only [plain, List.map, Site.holds_plain, Site.holds_nil, and_true] at hmove
  obtain ⟨m₂, c2, hsp₂⟩ := exec_addOffset c1.on hwsp hmove
  rw [c1.get _ hspOut, hstack, toInt32_eq_ofInt, hsize, ← Int32.ofInt_add, Int.sub_add_cancel] at hsp₂
  have hat : AtCode c site (ra + 4) fetch m₂ x :=
    ⟨hfetch, c2.on, by rw [c2.get _ (by simpa using hnoughtSp), c1.get _ hnoughtOut, hzero], hsp₂⟩
  have hmem₂ : m₂.memory = m.memory := c2.memory.trans c1.memory
  have htakes : ∀ {n}, c'.Takes f.returns n ↔ c.Takes f.returns n := by
    intro n
    rw [Context.Takes, Context.Takes, hlayout, h.stock, h'.stock]
  -- where the words of the result are found
  obtain ⟨y, hy⟩ : ∃ y, f.returns.base ≠ .void → m₂.get c.result = Int32.ofInt y
      ∧ y ≤ x - c.frameBytes ∧ (∀ n, c.Takes f.returns n → FrameIn m₂.memory y n)
      ∧ ∃ value, c'.scope.requireSlot (.function c'.index f.toSignature) .returnValue = .ok value
        ∧ c.Takes f.returns (bytesOf value.size)
        ∧ y = x - c.frameBytes + (value.offset.getD 0).toInt := by
    by_cases hv : f.returns.base = .void
    · exact ⟨0, fun hne => absurd hv hne⟩
    · obtain ⟨off, hoff, hget⟩ := hvalue hv
      obtain ⟨value, hreq, hoffset, hvtakes, hw⟩ := h'.resultSlot (by rw [hhead]; exact hv) hoff
      rw [hhead] at hreq hvtakes
      have hvtakes := htakes.1 hvtakes
      obtain ⟨h0, h1⟩ := hw
      refine ⟨x - c.frameBytes + off.toInt, fun _ => ⟨?_, by omega, fun n hn => ?_, value, hreq,
        hvtakes, by rw [hoffset]; rfl⟩⟩
      · rw [c2.get _ (by simpa using hresultSp), hget]
      · obtain rfl := hn.unique hvtakes
        have := hin.low
        have := hin.high
        exact ⟨by omega, by rw [hmem₂]; omega, hmem₂ ▸ hin.small⟩
  obtain ⟨mem, m₃, c3, hfetched⟩ := hf.exec h hb htype hat
    (hmem₂ ▸ hin.mono (by omega)) fun hv => ⟨(hy hv).1, (hy hv).2.1, (hy hv).2.2.1⟩
  rw [hmem₂] at hfetched
  refine ⟨m₃, c1.exec.trans (c2.exec.trans c3.exec), ?_, ?_, fun hnew hv => ?_, ?_, ?_, ?_, ?_, ?_⟩
  · rw [Code.size_append, ← Nat.add_assoc]
    exact c3.on
  · rw [c3.get _ h.scratch.stack, hsp₂]
  · obtain ⟨slot, hslot, hslottakes, hwords⟩ := hfetched.words hnew hv
    obtain ⟨-, -, -, value, hreq, hvtakes, hyvalue⟩ := hy hv
    refine ⟨slot, value, hslot, hreq, ?_⟩
    rw [c3.memory, hwords, hyvalue, hslottakes.unique hvtakes]
    rfl
  · rw [c3.memory]
    exact hfetched.frame
  · rw [c3.memory]
    exact hfetched.size
  · intro q hq hq₁ hq₂ hq₃
    rw [c3.get q hq, c2.get q (by simpa using hq₁), c1.get q (by simpa using ⟨hq₃, hq₂⟩)]
  · rw [c3.input, c2.input, c1.input]
  · rw [c3.output, c2.output, c1.output]

end Emit

end MoonBackend
