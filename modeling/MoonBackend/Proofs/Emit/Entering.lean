import MoonBackend.Proofs.Emit.Closed
import MoonBackend.Proofs.Emit.Passing

/-!
# Entering a called function

The parts of a calling sequence one after the other, up to the tag of the called function: its frame
lies right below that of the caller, its parameters hold the words of the arguments and its receiver
slot the address that it is to see, and of the caller's frame only the slot for the receiver of the call
has changed.
-/

namespace MoonBackend

open Layout Machine Code

/-- The words of a slot, in a frame at a position. -/
def Entry.wordsIn (e : Entry) (mem : Memory) (x : ℤ) : List Int32 :=
  mem.wordsAt (x + (e.offset.getD 0).toInt) (bytesOf e.size / 4).toNat

namespace Emit

variable {p : Program} {c : Context} {site : Site} {a : ℕ} {m : Machine} {x low : ℤ} {path : Path}
  {recv : Expr} {code : Code} {v : Int32} {size : Int64}

/-! ### The stock registers -/

namespace Fitted

variable (h : Fitted p c)

include h

theorem scratch : Scratch c :=
  scratch_of_validate (by rw [h.stock]; rfl) (by rw [h.stock]; decide)

theorem sp_eq : c.sp = ⟨14⟩ := by
  rw [Context.sp, h.stock]

theorem link_eq : c.link = ⟨15⟩ := by
  rw [Context.link, h.stock]

end Fitted

/-! ### What stays while a receiver is saved -/

theorem Saved.placeWords {mem mem' : Memory} {q : Entry × Place} {count : Int64}
    (hs : Saved c x path recv v mem mem') (h : Fitted p c) (hq : Passable c low q)
    (hc : Finds c (words q.1.type) count) (hin : FrameIn mem x c.frameBytes) :
    placeWords mem' x count.toNatClampNeg q.2 = placeWords mem x count.toNatClampNeg q.2 := by
  have hcount := hq.count hc
  obtain ⟨param, place⟩ := q
  cases place with
  | immediate => rfl
  | slot off =>
    obtain ⟨y, hy, ho, hk, hbytes⟩ := hq.entry off rfl
    obtain ⟨-, hlow⟩ := (h.entry_within h.scope hy ho).1
    have hlow : -c.frameBytes ≤ off.toInt - bytesOf y.size := hlow
    have := hin.low
    refine Memory.wordsAt_congr fun z hz hz' => hs.frame z (by omega) fun _ o hfind => ?_
    -- the slot for the receiver is another one
    obtain ⟨w, hw, hreq, ho'⟩ := Fitted.of_slotOffset hfind
    have hkind := kind_of_requireSlot hreq
    have hne : y ≠ w := by
      rintro rfl
      rw [hkind] at hk
      cases hk
    have hfour := h.address_bytes h.scope hw (by rw [hkind]; rfl)
    have := h.entries_apart h.scope hy hw hne ho ho'
    omega

theorem PassesArguments.found {args : List (Entry × Place)} (hp : PassesArguments c size args code) :
    ∀ q ∈ args, ∃ off n, q.1.getOffset = .ok off ∧ Finds c (words q.1.type) n := by
  induction hp with
  | nil => exact fun _ hq => (List.not_mem_nil hq).elim
  | cons hoff hn _ _ _ ih => exact List.forall_mem_cons.2 ⟨⟨_, _, hoff, hn⟩, ih⟩

/-! ### The jump -/

theorem exec_jump {k : ℕ} (h : Fitted p c) (hsize : size.toInt = c.frameBytes)
    (hat : AtCode c site a (jumpCode c size k) m x) :
    ∃ m' b, m.Exec m' ∧ site.names.address? (c.tags.getD k "") = some (Int32.ofNat b) ∧ m'.On site b
      ∧ m'.get c.sp = Int32.ofInt (x - c.frameBytes) ∧ m'.get c.link = Int32.ofNat (a + 8)
      ∧ (∀ q, q ≠ c.sp → q ≠ c.link → m'.get q = m.get q) ∧ m'.memory = m.memory
      ∧ m'.input = m.input ∧ m'.output = m.output := by
  have hcode := hat.code
  simp only [jumpCode, plain, List.map, Site.holds_plain, Site.holds_nil, and_true] at hcode
  obtain ⟨hmove, hjump, -⟩ := hcode
  have hwsp : c.sp.Writable := by
    rw [h.sp_eq]
    decide
  have hwlink : c.link.Writable := by
    rw [h.link_eq]
    decide
  have hne : c.sp ≠ c.link := by
    rw [h.sp_eq, h.link_eq]
    decide
  obtain ⟨m₁, c1, hsp⟩ := exec_addOffset hat.on hwsp hmove
  rw [hat.stack, Int64.toInt32_neg, toInt32_eq_ofInt, hsize, ← Int32.ofInt_neg,
    ← Int32.ofInt_add, ← Int.sub_eq_add_neg] at hsp
  have hjump : site.HoldsItem (a + 4) (.jl c.link (c.tags.getD k "")) := hjump
  obtain ⟨-, mi, hencode, -⟩ := id hjump
  obtain ⟨-, -, -, -, hlabel⟩ := Instruction.encode?_eq_some hencode
  have hlabel : site.names.address? (c.tags.getD k "") = some mi.k := hlabel
  have e2 := c1.on.exec_jl hjump hlabel
  have hk : Int32.ofNat mi.k.toBitVec.toNat = mi.k := by
    rw [Int32.ofNat_bitVecToNat, Int32.ofBitVec_toBitVec]
  have hput := c1.on.put c.link (Int32.ofNat (a + 4 + 4)) (a + 4)
  refine ⟨_, mi.k.toBitVec.toNat, c1.exec.trans e2, by rw [hk]; exact hlabel,
    ⟨hput.image, hput.runtime, hput.running, hk.symm⟩, ?_, ?_, fun q hq hq' => ?_, ?_, ?_, ?_⟩
  · rw [get_goto, get_put_of_ne hne, hsp]
  · rw [get_goto, get_put_self hwlink]
  · rw [get_goto, get_put_of_ne hq', c1.get q (by simpa using hq)]
  · rw [memory_goto, memory_put, c1.memory]
  · rw [input_goto, input_put, c1.input]
  · rw [output_goto, output_put, c1.output]

/-! ### The calling sequence -/

/-- A called function is entered, in a frame right below that of the caller. -/
structure Entered (c : Context) (site : Site) (x : ℤ) (path : Path) (e recv : Expr) (isNew : Bool)
    (k : ℕ) (callee : Signature) (scope : Scope) (args : List Place) (ra : ℕ) (m m' : Machine) :
    Prop where
  exec : m.Exec m'
  /-- Control is at the tag of the function. -/
  entry : ∃ b, site.names.address? (c.tags.getD k "") = some (Int32.ofNat b) ∧ m'.On site b
  stack : m'.get c.sp = Int32.ofInt (x - c.frameBytes)
  link : m'.get c.link = Int32.ofNat ra
  params : ∀ q ∈ scope.params.zip args, q.1.wordsIn m'.memory (x - c.frameBytes)
    = placeWords m.memory x (bytesOf q.1.size / 4).toNat q.2
  receiver : callee.isMember = true → ∃ slot,
    scope.requireSlot (.function k callee) .reference = .ok slot
      ∧ Receives c m.memory x path e recv callee isNew
        (m'.memory.word (x - c.frameBytes + (slot.offset.getD 0).toInt))
  /-- Apart from the slot for the receiver of the call, only the frame of the function changes. -/
  kept : ∀ y, 0 ≤ y → y < x - c.frameBytes - bytesOf scope.size + 4 ∨ x - c.frameBytes + 4 ≤ y →
    (recv.isMissing = false → ∀ off, Finds c (slotOffset (.expr (0 :: path) recv) .reference) off →
      y < x + off.toInt ∨ x + off.toInt + 4 ≤ y) → m'.memory.byte y = m.memory.byte y
  size : m'.memory.size = m.memory.size
  registers : ∀ q, q ∉ c.general → q ≠ c.sp → q ≠ c.link → m'.get q = m.get q
  input : m'.input = m.input
  output : m'.output = m.output

section

variable {name : String} {args : List Expr} {isNew : Bool} {type : Ty} {k : ℕ} {use : Use}
  {callee : MoonBackend.Function} {scope : Scope} {places : List Place}

theorem Places.passable (hp : Places c path 1 args places) (h : Fitted p c)
    (he : AllReady c path 1 args) (hscope : c.layout.table.functions[k]? = some scope)
    (htypes : scope.params.map Entry.type = args.map Expr.type) :
    ∀ q ∈ scope.params.zip places, Passable c (bytesOf scope.size) q := by
  intro q hq
  obtain ⟨hmem, hkind⟩ := List.mem_filter.1 (List.of_mem_zip hq).1
  have hkind : q.1.kind = .parameter := by simpa using hkind
  have htakes := h.takes_of_mem hscope hmem (by rw [hkind]; rfl)
  refine ⟨fun n hn => ?_, fun off hoff => (h.entry_within hscope hmem hoff).1,
    hp.entry h he htypes q hq _ htakes⟩
  obtain ⟨hwords, hpos, -⟩ := h.words_eq htakes hn
  exact ⟨hwords, hpos⟩

variable {size : Int64} {text : String} {saved passed receiver : Code} {e : Expr}

structure BeforeJump (c : Context) (path : Path) (e recv : Expr) (isNew : Bool) (k : ℕ)
    (callee : Signature) (scope : Scope) (places : List Place) (size : Int64)
    (saved passed receiver : Code) : Prop where
  frame : c.scope.frameSize = .ok size
  count : scope.params.length = places.length
  saves : SavesReceiver c (0 :: path) recv saved
  passes : PassesArguments c size (scope.params.zip places) passed
  receives : PlacesReceiver c path e recv isNew k callee scope size receiver

/-- What the parts before the jump do to the memory. -/
theorem BeforeJump.exec
    (hb : BeforeJump c path e recv isNew k callee.toSignature scope places size saved passed receiver)
    (h : Fitted p c) (hargs : ∀ q ∈ scope.params.zip places, Passable c (bytesOf scope.size) q)
    (hscope : c.layout.table.functions[k]? = some scope)
    (hcomplete : recv.isMissing = false → recv.Completed c.layout.table c.index)
    (hslot : ¬ recv.isMissing = true → Backed c.scope [Demand.receiver (0 :: path) recv])
    (hat : AtCode c site a (c.note text ++ saved ++ passed ++ receiver) m x)
    (hin : FrameIn m.memory x (c.frameBytes + bytesOf scope.size))
    (hv : recv.isMissing = false → Lies c m.memory x (0 :: path) recv v) :
    ∃ mem₁ mem₂ mem₃ m',
      Reaches site c.general m (a + Code.size (c.note text ++ saved ++ passed ++ receiver)) mem₃ m'
      ∧ Saved c x (0 :: path) recv v m.memory mem₁
      ∧ Passed c x (bytesOf scope.size) (x - c.frameBytes + 4) (scope.params.zip places) mem₁ mem₂
      ∧ ReceiverPassed c x path e recv isNew k callee.toSignature scope m.memory mem₂ mem₃ := by
  obtain ⟨hsize, hcount, hsaves, hpasses, hreceives⟩ := hb
  have hsize := Fitted.frameSize_eq hsize
  have hscratch := h.scratch
  have hnn := h.frameBytes_nonneg
  have hsn : 0 ≤ bytesOf scope.size :=
    (h.laid.frame_sum h.fits h.proper (List.mem_of_getElem? hscope)).2.2
  have hlow : c.frameBytes + bytesOf scope.size < 2 ^ 63 := by
    have := hin.low
    have := hin.high
    have := hin.small
    omega
  have c0 : Computes site c.general m (a + Code.size (c.note text)) m := by
    rw [size_note]
    exact .refl hat.on
  have hat₀ := hat.first.first.after hscratch (.of_computes c0) fun _ hq => hq
  obtain ⟨mem₁, m₁, c1, hsaved⟩ := hsaves.exec h hscratch hcomplete hslot hat₀
    (hin.mono (by omega)) hv
  have c1 := Reaches.after c0 c1
  rw [Nat.add_assoc, ← Code.size_append] at c1
  have hat₁ := hat.first.after hscratch c1 fun _ hq => hq
  have hin₁ : FrameIn m₁.memory x (c.frameBytes + bytesOf scope.size) :=
    hin.of_size (c1.memory ▸ hsaved.size)
  obtain ⟨mem₂, m₂, c2, hpassed⟩ := hpasses.exec h hscratch hsize hlow hargs (by
      rw [List.map_fst_zip hcount.le]
      exact (h.entries_below hscope).sublist List.filter_sublist) hat₁ hin₁
    (fun q hq off hoff => by
      have := ((hargs q hq).slot off hoff).1
      omega) le_rfl
  rw [c1.memory] at hpassed
  have c2 := c1.trans c2
  rw [Nat.add_assoc, ← Code.size_append] at c2
  have hat₂ := hat.after hscratch c2 fun _ hq => hq
  have hin₂ : FrameIn m₂.memory x (c.frameBytes + bytesOf scope.size) :=
    hin.of_size (c2.memory ▸ hpassed.size.trans hsaved.size)
  -- the words of the caller's frame are those after the receiver was saved
  have hword : ∀ off, Within c.frameBytes 4 off →
      m₂.memory.word (x + off.toInt) = mem₁.word (x + off.toInt) := by
    intro off hw
    obtain ⟨h0, h1⟩ := hw
    have := hin.low
    rw [c2.memory]
    exact Memory.word_congr fun y hy hy' => hpassed.frame y (by omega) (.inr (by omega))
  obtain ⟨mem₃, m₃, c3, hplaced⟩ := hreceives.exec h hscratch hsize hlow hscope hat₂
    hin₂ hslot hv
    (fun hm off hoff => by
      have hm' : ¬ recv.isMissing = true := by simp [hm]
      rw [hword off (h.address_within (hslot hm') hoff rfl)]
      exact hsaved.word hm off hoff)
    fun hm off hw => by
      obtain ⟨h0, h1⟩ := id hw
      have := hin.low
      rw [hword off hw]
      refine Memory.word_congr fun y hy hy' => hsaved.frame y (by omega) fun hm' => ?_
      rw [hm] at hm'
      cases hm'
  rw [c2.memory] at hplaced
  have c3 := c2.trans c3
  rw [Nat.add_assoc, ← Code.size_append] at c3
  exact ⟨mem₁, mem₂, mem₃, m₃, c3, hsaved, hpassed, hplaced⟩

theorem ReceiverPassed.wordsAt {before mem mem' : Memory} {callee : Signature} {y : Entry}
    {off : Int64} {n : ℕ}
    (hr : ReceiverPassed c x path e recv isNew k callee scope before mem mem') (h : Fitted p c)
    (hscope : c.layout.table.functions[k]? = some scope) (hy : y ∈ scope.entries)
    (hk : y.kind.isAddress = false) (ho : y.getOffset = .ok off) (hn : 4 * (n : ℤ) = bytesOf y.size)
    (hin : FrameIn mem x (c.frameBytes + bytesOf scope.size)) :
    mem'.wordsAt (x - c.frameBytes + off.toInt) n = mem.wordsAt (x - c.frameBytes + off.toInt) n := by
  obtain ⟨-, hlow⟩ := (h.entry_within hscope hy ho).1
  have := hin.low
  refine Memory.wordsAt_congr fun z hz hz' => hr.frame z (by omega) fun _ slot o hreq ho' => ?_
  have hkind := kind_of_requireSlot hreq
  have hmem := Fitted.mem_of_requireSlot hreq
  have hne : y ≠ slot := by
    rintro rfl
    rw [hkind] at hk
    cases hk
  have hfour := h.address_bytes hscope hmem (by rw [hkind]; rfl)
  have := h.entries_apart hscope hy hmem hne ho ho'
  omega

/-- The calling sequence up to the tag of the called function. -/
theorem BeforeJump.enters
    (hb : BeforeJump c path e recv isNew k callee.toSignature scope places size saved passed receiver)
    (h : Fitted p c) (hargs : ∀ q ∈ scope.params.zip places, Passable c (bytesOf scope.size) q)
    (hscope : c.layout.table.functions[k]? = some scope)
    (hcomplete : recv.isMissing = false → recv.Completed c.layout.table c.index)
    (hslot : ¬ recv.isMissing = true → Backed c.scope [Demand.receiver (0 :: path) recv])
    (hat : AtCode c site a (c.note text ++ saved ++ passed ++ receiver ++ jumpCode c size k) m x)
    (hin : FrameIn m.memory x (c.frameBytes + bytesOf scope.size))
    (hv : recv.isMissing = false → Lies c m.memory x (0 :: path) recv v) :
    ∃ m', Entered c site x path e recv isNew k callee.toSignature scope places
      (a + Code.size (c.note text ++ saved ++ passed ++ receiver) + 8) m m' := by
  have hnn := h.frameBytes_nonneg
  have hsn : 0 ≤ bytesOf scope.size :=
    (h.laid.frame_sum h.fits h.proper (List.mem_of_getElem? hscope)).2.2
  obtain ⟨mem₁, mem₂, mem₃, m₃, c3, hsaved, hpassed, hgiven⟩ :=
    hb.exec h hargs hscope hcomplete hslot hat.first hin hv
  obtain ⟨m', b, e4, htag, hon, hsp, hlink, hregs, hmem, hinput, houtput⟩ :=
    exec_jump h (Fitted.frameSize_eq hb.frame) (hat.after h.scratch c3 fun _ hq => hq)
  have hmem : m'.memory = mem₃ := hmem.trans c3.memory
  have hin₂ : FrameIn mem₂ x (c.frameBytes + bytesOf scope.size) :=
    hin.of_size (hpassed.size.trans hsaved.size)
  refine ⟨m', c3.exec.trans e4, ⟨b, htag, hon⟩, hsp, hlink, fun q hq => ?_, fun hm => ?_,
    fun y hy hout hreceiver => ?_, ?_, fun q hq hq' hq'' => ?_, hinput.trans c3.input,
    houtput.trans c3.output⟩
  · obtain ⟨off, count, hoff, hcount⟩ := hb.passes.found q hq
    have hpass := hargs q hq
    have hn := hpass.count hcount
    obtain ⟨hparam, hkind⟩ := List.mem_filter.1 (List.of_mem_zip hq).1
    have hkind : q.1.kind = .parameter := by simpa using hkind
    have hwords : (bytesOf q.1.size / 4).toNat = count.toNatClampNeg := by omega
    rw [Entry.wordsIn, Entry.offset_of_getOffset hoff, Option.getD_some, hwords, hmem,
      hgiven.wordsAt h hscope hparam (by rw [hkind]; rfl) hoff hn hin₂,
      hpassed.words q hq off count hoff hcount,
      hsaved.placeWords h hpass hcount (hin.mono (by omega))]
  · obtain ⟨slot, off, hreq, hoff, hreceives⟩ := hgiven.word hm
    refine ⟨slot, hreq, ?_⟩
    rwa [Entry.offset_of_getOffset hoff, Option.getD_some, hmem]
  · rw [hmem, hgiven.frame y hy fun _ slot off hreq hoff => ?_, hpassed.frame y hy hout,
      hsaved.frame y hy hreceiver]
    have hslotmem := Fitted.mem_of_requireSlot hreq
    obtain ⟨hw, -⟩ := h.entry_within hscope hslotmem hoff
    rw [h.address_bytes hscope hslotmem (by rw [kind_of_requireSlot hreq]; rfl)] at hw
    obtain ⟨h0, h1⟩ := hw
    omega
  · rw [hmem, hgiven.size, hpassed.size, hsaved.size]
  · rw [hregs q hq' hq'', c3.get q hq]

end

end Emit

end MoonBackend
