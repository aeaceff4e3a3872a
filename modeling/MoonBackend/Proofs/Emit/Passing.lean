import MoonBackend.Proofs.Emit.Confined
import MoonBackend.Proofs.Emit.Receivers

/-!
# Passing arguments and receivers

The execution of the parts of a calling sequence: arguments are copied to the slots of the parameters,
one below the other in the frame of the called function, the address that it sees as its receiver is
stored, and the stack pointer moves to its frame. Nothing in the frame of the caller changes.
-/

namespace MoonBackend

open Layout Machine Code

theorem Entry.offset_of_getOffset {e : Entry} {off : Int64} (h : e.getOffset = .ok off) :
    e.offset = some off := by
  unfold Entry.getOffset at h
  split at h
  · rename_i o ho
    cases h
    exact ho
  · cases h

namespace Emit

variable {p : Program} {c : Context} {site : Site} {a : ℕ} {m : Machine} {x low top : ℤ} {path : Path}
  {e recv : Expr} {code : Code} {r : Register} {v : Int32} {off size : Int64} {place : Place} {n : ℕ}

/-! ### Slots of a frame -/

theorem descends_of_within {high : ℤ} (hw : Within high (4 * n) off) (hlt : high < 2 ^ 63) :
    Descends off n := fun _ hi => toInt_below hw (by exact_mod_cast hi) hlt

theorem FrameIn.words {mem : Memory} {high : ℤ} (h : FrameIn mem x high)
    (hw : Within high (4 * n) off) : ∀ i < n, mem.Inside (x + off.toInt - 4 * (i : ℕ)) 4 := by
  obtain ⟨hlow, hhigh, hsmall⟩ := h
  obtain ⟨h0, h1⟩ := hw
  exact fun i hi => ⟨by omega, by push_cast; omega, hsmall⟩

/-- What lies in a frame of `low` bytes right below that of the function under way. -/
theorem Fitted.below (h : Fitted p c) (hsize : size.toInt = c.frameBytes)
    (hlow : c.frameBytes + low < 2 ^ 63) {k : ℤ} (hk : 0 ≤ k) (hw : Within low k off) :
    (off - size).toInt = off.toInt - c.frameBytes ∧ Within (c.frameBytes + low) k (off - size) := by
  have hnn := h.frameBytes_nonneg
  obtain ⟨h0, h1⟩ := hw
  have hd : (off - size).toInt = off.toInt - size.toInt := toInt_sub_of_le (by omega) (by omega)
  exact ⟨by omega, by omega, by omega⟩

theorem Fitted.entries_below (h : Fitted p c) {k : ℕ} {s : Scope}
    (hs : c.layout.table.functions[k]? = some s) : s.entries.Pairwise Below := by
  have hmem := List.mem_of_getElem? hs
  obtain ⟨f, -, hframed⟩ := h.framed k s hs
  obtain ⟨-, hsum, -⟩ := h.laid.frame_sum h.fits h.proper hmem
  have hlt : bytesOf s.size < 2 ^ 63 := Int64.toInt_lt _
  have hbelow := (tiled_bounds (h.laid.functions s hmem) (fun e he hk =>
    h.laid.entry_nonneg (List.mem_append_right _ hmem) he hk)
    (by rw [← hsum, Int64.toInt_zero]; omega)).2
  rwa [List.filter_eq_self.2 hframed.storage] at hbelow

theorem Fitted.entries_apart (h : Fitted p c) {k : ℕ} {s : Scope}
    (hs : c.layout.table.functions[k]? = some s) {y z : Entry} (hy : y ∈ s.entries)
    (hz : z ∈ s.entries) (hne : y ≠ z) {o o' : Int64} (ho : y.getOffset = .ok o)
    (ho' : z.getOffset = .ok o') :
    o'.toInt ≤ o.toInt - bytesOf y.size ∨ o.toInt ≤ o'.toInt - bytesOf z.size := by
  have hsymm : Std.Symm fun y z => Below y z ∨ Below z y := ⟨fun _ _ => Or.symm⟩
  have hpair : s.entries.Pairwise fun y z => Below y z ∨ Below z y :=
    (h.entries_below hs).imp Or.inl
  exact (hpair.forall hy hz hne).imp
    (fun hb => hb o o' (Entry.offset_of_getOffset ho) (Entry.offset_of_getOffset ho'))
    fun hb => hb o' o (Entry.offset_of_getOffset ho') (Entry.offset_of_getOffset ho)

/-! ### Stores -/

/-- The value at a place is stored at an offset in memory that it does not overlap. -/
theorem Stores.exec {d count : Int64} (hs : Stores c r (c.slot d) place count code)
    (hn : count.toNatClampNeg = n) (h : Fitted p c) (hscratch : Scratch c) (hr : r ∈ c.general)
    (hat : AtCode c site a code m x) (hd : Descends d n)
    (hind : ∀ i < n, m.memory.Inside (x + d.toInt - 4 * (i : ℕ)) 4)
    (hplace : ∀ off, place = .slot off → Descends off n
      ∧ (∀ i < n, m.memory.Inside (x + off.toInt - 4 * (i : ℕ)) 4)
      ∧ (x + d.toInt + 4 ≤ x + off.toInt - 4 * n + 4
        ∨ x + off.toInt + 4 ≤ x + d.toInt - 4 * n + 4)) :
    ∃ mem m', Reaches site c.general m (a + Code.size code) mem m'
      ∧ (placeWords m.memory x n place).length = n
      ∧ m.memory.Puts mem (x + d.toInt) (placeWords m.memory x n place) := by
  have hwrites := hscratch.writable r hr
  have hstack : r ≠ c.sp := fun he => hscratch.stack (he ▸ hr)
  have hone : ∀ q ∈ [r], q ∈ c.general := fun q hq => (List.mem_singleton.1 hq) ▸ hr
  cases hs with
  | slot off _ =>
    obtain ⟨hoff, hins, hapart⟩ := hplace off rfl
    have hcode : copyCode c.word r (c.slot d) (c.slot off) count
        = copyWords r (c.slot d) (c.slot off) n := by
      rw [h.word_eq, ← hn]
      rfl
    rw [hcode] at hat ⊢
    obtain ⟨mem, m', hrun, hputs⟩ := exec_copyWords hwrites hstack hstack hat.on hat.code hat.stack
      hat.stack hd hoff hind hins hapart
    exact ⟨mem, m', hrun.mono hone, Memory.length_wordsAt .., hputs⟩
  | @immediate w load hconstant =>
    obtain rfl : n = 1 := hn.symm
    obtain ⟨m₁, c1, hv⟩ := (Loads.immediate hconstant).exec (x := x) hat.on hat.first.code hat.zero
      hat.stack trivial hwrites
    have hat₁ := hat.after hscratch (.of_computes c1) hone
    have hinside : m.memory.Inside (x + d.toInt) 4 := by simpa using hind 0 (by decide)
    have hcode := hat₁.code
    simp only [plain, List.map, Site.holds_plain, Site.holds_nil, and_true] at hcode
    have e2 := hat₁.on.exec_sw hcode hat₁.stack (c1.memory ▸ hinside)
    rw [hv] at e2
    have c2 := Reaches.after (c1.mono hone) (Reaches.poke hat₁.on e2)
    rw [c1.memory] at c2
    have hend : a + Code.size load + 4
        = a + Code.size (load ++ plain [.sw (c.slot d).off (c.slot d).base r]) := by
      rw [Code.size_append, ← Nat.add_assoc]
      rfl
    exact ⟨_, _, hend ▸ c2, rfl, .single hinside _⟩

/-! ### Arguments -/

/-- The slot of a parameter lies in a frame of some bytes and takes the words of its type, and a slot
of an argument is one for a value of as many bytes. -/
structure Passable (c : Context) (low : ℤ) (q : Entry × Place) : Prop where
  words : ∀ n, Finds c (words q.1.type) n → 4 * n.toInt = bytesOf q.1.size ∧ 0 < n.toInt
  slot : ∀ off, q.1.getOffset = .ok off → Within low (bytesOf q.1.size) off
  entry : ∀ off, q.2 = .slot off → ∃ y ∈ c.scope.entries, y.getOffset = .ok off
    ∧ y.kind.isAddress = false ∧ bytesOf y.size = bytesOf q.1.size

namespace Passable

variable {q : Entry × Place}

theorem count (hq : Passable c low q) {count : Int64} (hc : Finds c (Emit.words q.1.type) count) :
    4 * (count.toNatClampNeg : ℤ) = bytesOf q.1.size := by
  obtain ⟨hbytes, hpos⟩ := hq.words count hc
  rw [← Int64.toNat_toInt]
  omega

theorem has (hq : Passable c low q) (h : Fitted p c) : q.2.Has c (bytesOf q.1.size) := by
  intro off hoff
  obtain ⟨y, hy, ho, -, hbytes⟩ := hq.entry off hoff
  exact hbytes ▸ (h.entry_within h.scope hy ho).1

end Passable

/-- The parameters, in a frame of `low` bytes right below that of the caller, hold the words of the
arguments; outside of this frame, and from `top` on, every byte is as it was. -/
structure Passed (c : Context) (x low top : ℤ) (args : List (Entry × Place)) (mem mem' : Memory) :
    Prop where
  size : mem'.size = mem.size
  words : ∀ q ∈ args, ∀ off n, q.1.getOffset = .ok off → Finds c (words q.1.type) n →
    mem'.wordsAt (x - c.frameBytes + off.toInt) n.toNatClampNeg
      = placeWords mem x n.toNatClampNeg q.2
  frame : ∀ y, 0 ≤ y → y < x - c.frameBytes - low + 4 ∨ top ≤ y → mem'.byte y = mem.byte y

/-- The words at a place in the frame of the caller stay when only bytes below it change. -/
theorem placeWords_congr {mem mem' : Memory} (hp : place.Has c (4 * n))
    (hin : FrameIn mem x c.frameBytes)
    (hsame : ∀ y, 0 ≤ y → x - c.frameBytes + 4 ≤ y → mem'.byte y = mem.byte y) :
    placeWords mem' x n place = placeWords mem x n place := by
  cases place with
  | immediate => rfl
  | slot off =>
    obtain ⟨-, hlow⟩ := hp off rfl
    have := hin.low
    exact Memory.wordsAt_congr fun y hy _ => hsame y (by omega) (by omega)

theorem PassesArguments.exec {args : List (Entry × Place)} (hp : PassesArguments c size args code)
    (h : Fitted p c) (hscratch : Scratch c) (hsize : size.toInt = c.frameBytes)
    (hlow : c.frameBytes + low < 2 ^ 63) (hargs : ∀ q ∈ args, Passable c low q)
    (hdown : (args.map Prod.fst).Pairwise Below) (hat : AtCode c site a code m x)
    (hin : FrameIn m.memory x (c.frameBytes + low))
    (htop : ∀ q ∈ args, ∀ off, q.1.getOffset = .ok off → x - c.frameBytes + off.toInt + 4 ≤ top)
    (hbelow : top ≤ x - c.frameBytes + 4) :
    ∃ mem m', Reaches site c.general m (a + Code.size code) mem m'
      ∧ Passed c x low top args m.memory mem := by
  induction hp generalizing a m top with
  | nil =>
    exact ⟨m.memory, m, .of_computes (.refl hat.on), rfl, fun q hq => (List.not_mem_nil hq).elim,
      fun _ _ _ => rfl⟩
  | @cons param arg off count r first rest more hoff hcount hr hstore hmore ih =>
    rw [List.forall_mem_cons] at hargs htop
    rw [List.map_cons, List.pairwise_cons] at hdown
    obtain ⟨hparam, hargs⟩ := hargs
    have hbytes : 4 * (count.toNatClampNeg : ℤ) = bytesOf param.size := hparam.count hcount
    have hw : Within low (bytesOf param.size) off := hparam.slot off hoff
    have htop₀ := htop.1 off hoff
    have hnn := h.frameBytes_nonneg
    rw [← hbytes] at hw
    obtain ⟨hd, hslot⟩ := h.below hsize hlow (by omega) hw
    obtain ⟨h0, h1⟩ := hw
    obtain ⟨mem₁, m₁, c1, hlen, hputs⟩ := hstore.exec rfl h hscratch hr hat.first
      (descends_of_within hslot hlow) (FrameIn.words hin hslot) fun place hplace => by
        have hwp : Within c.frameBytes (4 * (count.toNatClampNeg : ℤ)) place :=
          hbytes ▸ hparam.has h place hplace
        refine ⟨descends_of_within hwp c.frameBytes_lt,
          FrameIn.words (hin.mono (by omega)) hwp, .inl ?_⟩
        have := hwp.2
        omega
    have hframe := hputs.frame
    rw [hlen, hd] at hframe
    have hat₁ := hat.after hscratch c1 fun _ hq => hq
    have hin₁ : FrameIn m₁.memory x (c.frameBytes + low) :=
      hin.of_size (c1.memory ▸ hputs.size)
    -- the slots that follow lie below the one that was written
    have hnext : ∀ q ∈ more, ∀ off', q.1.getOffset = .ok off' →
        x - c.frameBytes + off'.toInt + 4 ≤ x - c.frameBytes + off.toInt - bytesOf param.size + 4 := by
      intro q hq off' hoff'
      have hq : Below param q.1 := hdown.1 q.1 (List.mem_map_of_mem hq)
      have := hq off off' (Entry.offset_of_getOffset hoff) (Entry.offset_of_getOffset hoff')
      omega
    obtain ⟨mem, m', c2, hpassed⟩ := ih hargs hdown.2 hat₁ hin₁ hnext (by omega)
    rw [c1.memory] at hpassed
    refine ⟨mem, m', ?_, hpassed.size.trans hputs.size, ?_, fun y hy hout => ?_⟩
    · rw [Code.size_append, ← Nat.add_assoc]
      exact c1.trans c2
    · rw [List.forall_mem_cons]
      refine ⟨fun off' count' hoff' hcount' => ?_, fun q hq off' count' hoff' hcount' => ?_⟩
      · cases hoff.symm.trans hoff'
        obtain rfl := hcount.unique hcount'
        have hwords := hputs.words
        rw [hlen, hd] at hwords
        rw [← hwords, show x - c.frameBytes + off.toInt = x + (off.toInt - c.frameBytes) by omega]
        have := hin.low
        exact Memory.wordsAt_congr fun y hy _ => hpassed.frame y (by omega) (.inr (by omega))
      · have hq' := hargs q hq
        have hplace : q.2.Has c (4 * (count'.toNatClampNeg : ℤ)) := hq'.count hcount' ▸ hq'.has h
        rw [hpassed.words q hq off' count' hoff' hcount']
        exact placeWords_congr hplace (hin.mono (by omega)) fun y hy hy' =>
          hframe y hy (.inr (by omega))
    · rw [hpassed.frame y hy (by omega)]
      exact hframe y hy (by omega)

/-! ### The receiver -/

/-- The address that a called function is to see as its receiver: that of a new object, which is the
slot of the call itself, that of the receiver of the call, or what the caller sees as its own, moved to
where the part of the called function's class lies. -/
inductive Receives (c : Context) (mem : Memory) (x : ℤ) (path : Path) (e recv : Expr)
    (callee : Signature) : Bool → Int32 → Prop
  | new {off : Int64} : Finds c (temporary path e) off →
    Receives c mem x path e recv callee true (Int32.ofInt (x + off.toInt))
  | on {v : Int32} {shift : Int64} : recv.isMissing = false → Lies c mem x (0 :: path) recv v →
    c.layout.table.baseOffset recv.type.base.className callee.className = .ok shift →
    Receives c mem x path e recv callee false (v + shift.toInt32)
  | own {off shift : Int64} : recv.isMissing = true → Finds c (ownSlot .reference) off →
    c.layout.table.baseOffset c.head.className callee.className = .ok shift →
    Receives c mem x path e recv callee false (mem.word (x + off.toInt) + shift.toInt32)

theorem PassesReceiver.exec {isNew : Bool} {callee : Signature} {mem : Memory}
    (hp : PassesReceiver c path e recv isNew callee r code) (h : Fitted p c) (hr : r.Writable)
    (hat : AtCode c site a code m x) (hin : FrameIn m.memory x c.frameBytes)
    (hb : ¬ recv.isMissing = true → Backed c.scope [Demand.receiver (0 :: path) recv])
    (hv : recv.isMissing = false → Lies c mem x (0 :: path) recv v)
    (hsaved : recv.isMissing = false →
      ∀ off, Finds c (slotOffset (.expr (0 :: path) recv) .reference) off →
        m.memory.word (x + off.toInt) = v)
    (hown : recv.isMissing = true → ∀ off, Within c.frameBytes 4 off →
      m.memory.word (x + off.toInt) = mem.word (x + off.toInt)) :
    ∃ m', Computes site [r] m (a + Code.size code) m'
      ∧ Receives c mem x path e recv callee isNew (m'.get r) := by
  -- a word of the frame is loaded and moved
  have hload : ∀ {off shift : Int64}, AtCode c site a (plain [.lw r off c.sp] ++ adjust r shift) m x →
      Within c.frameBytes 4 off →
      ∃ m', Computes site [r] m (a + Code.size (plain [.lw r off c.sp] ++ adjust r shift)) m'
        ∧ m'.get r = m.memory.word (x + off.toInt) + shift.toInt32 := by
    intro off shift hat hw
    have hcode := hat.code
    simp only [plain, List.map, Site.holds_append, Site.holds_plain, Site.holds_nil, and_true]
      at hcode
    have e1 := hat.on.exec_lw hcode.1 hat.stack (hin.inside hw)
    have c1 : Computes site [r] m (a + 4) _ := Computes.put hat.on e1 (by simp)
    obtain ⟨m', c2, hget⟩ := exec_adjust c1.on hr hcode.2
    rw [get_put_self hr] at hget
    rw [Code.size_append, ← Nat.add_assoc]
    exact ⟨m', c1.trans c2, hget⟩
  cases hp with
  | @new off hnew hoff =>
    subst hnew
    have hcode := hat.code
    simp only [plain, List.map, Site.holds_plain, Site.holds_nil, and_true] at hcode
    obtain ⟨m', c1, hget⟩ := exec_addOffset hat.on hr hcode
    refine ⟨m', c1, ?_⟩
    rw [hget, hat.stack, toInt32_eq_ofInt, ← Int32.ofInt_add]
    exact .new hoff
  | on hnew hmissing hoff hshift =>
    subst hnew
    obtain ⟨m', c1, hget⟩ := hload hat
      (h.address_within (hb (by rw [hmissing]; decide)) hoff rfl)
    refine ⟨m', c1, ?_⟩
    rw [hget, hsaved hmissing _ hoff]
    exact .on hmissing (hv hmissing) hshift
  | own hnew hmissing hm hoff hshift =>
    subst hnew
    have hw := h.self_within hm hoff
    obtain ⟨m', c1, hget⟩ := hload hat hw
    refine ⟨m', c1, ?_⟩
    rw [hget, hown hmissing _ hw]
    exact .own hmissing hoff hshift

/-- The slot for the receiver of a member function, in a frame right below that of the caller, holds
the address that it is to see, and every other byte is as it was. -/
structure ReceiverPassed (c : Context) (x : ℤ) (path : Path) (e recv : Expr) (isNew : Bool) (k : ℕ)
    (callee : Signature) (scope : Scope) (before mem mem' : Memory) : Prop where
  size : mem'.size = mem.size
  word : callee.isMember = true → ∃ slot off,
    scope.requireSlot (.function k callee) .reference = .ok slot ∧ slot.getOffset = .ok off
      ∧ Receives c before x path e recv callee isNew
        (mem'.word (x - c.frameBytes + off.toInt))
  frame : ∀ y, 0 ≤ y → (callee.isMember = true → ∀ slot off,
    scope.requireSlot (.function k callee) .reference = .ok slot → slot.getOffset = .ok off →
      y < x - c.frameBytes + off.toInt ∨ x - c.frameBytes + off.toInt + 4 ≤ y) →
    mem'.byte y = mem.byte y

theorem PlacesReceiver.exec {isNew : Bool} {k : ℕ} {callee : Signature} {scope : Scope}
    {mem : Memory} (hp : PlacesReceiver c path e recv isNew k callee scope size code)
    (h : Fitted p c) (hscratch : Scratch c) (hsize : size.toInt = c.frameBytes)
    (hlow : c.frameBytes + bytesOf scope.size < 2 ^ 63)
    (hscope : c.layout.table.functions[k]? = some scope)
    (hat : AtCode c site a code m x)
    (hin : FrameIn m.memory x (c.frameBytes + bytesOf scope.size))
    (hb : ¬ recv.isMissing = true → Backed c.scope [Demand.receiver (0 :: path) recv])
    (hv : recv.isMissing = false → Lies c mem x (0 :: path) recv v)
    (hsaved : recv.isMissing = false →
      ∀ off, Finds c (slotOffset (.expr (0 :: path) recv) .reference) off →
        m.memory.word (x + off.toInt) = v)
    (hown : recv.isMissing = true → ∀ off, Within c.frameBytes 4 off →
      m.memory.word (x + off.toInt) = mem.word (x + off.toInt)) :
    ∃ mem' m', Reaches site c.general m (a + Code.size code) mem' m'
      ∧ ReceiverPassed c x path e recv isNew k callee scope mem m.memory mem' := by
  cases hp with
  | free hm =>
    refine ⟨m.memory, m, .of_computes (.refl hat.on), rfl, fun hm' => ?_, fun _ _ _ => rfl⟩
    rw [hm] at hm'
    cases hm'
  | @member slot off r load hm hreq hoff hr hpass =>
    have hmem := Fitted.mem_of_requireSlot hreq
    obtain ⟨hw, -⟩ := h.entry_within hscope hmem hoff
    rw [h.address_bytes hscope hmem (by rw [kind_of_requireSlot hreq]; rfl)] at hw
    obtain ⟨hd, hslot⟩ := h.below hsize hlow (by decide) hw
    have hinside := hin.inside hslot
    have hpos : x + (off - size).toInt = x - c.frameBytes + off.toInt := by omega
    have hnn : 0 ≤ bytesOf scope.size := by
      obtain ⟨h0, h1⟩ := hw
      omega
    rw [hpos] at hinside
    obtain ⟨m₁, c1, hget⟩ := hpass.exec h (hscratch.writable r hr) hat.first
      (hin.mono (by omega)) hb hv hsaved hown
    have hone : ∀ q ∈ [r], q ∈ c.general := fun q hq => (List.mem_singleton.1 hq) ▸ hr
    have hat₁ := hat.after hscratch (.of_computes c1) hone
    have hcode := hat₁.code
    simp only [plain, List.map, Site.holds_plain, Site.holds_nil, and_true] at hcode
    have e2 := hat₁.on.exec_sw hcode hat₁.stack (by rwa [hpos, c1.memory])
    rw [hpos] at e2
    have c2 := Reaches.after (c1.mono hone) (Reaches.poke hat₁.on e2)
    have hend : a + Code.size load + 4 = a + Code.size (load ++ plain [.sw (off - size) c.sp r]) := by
      rw [Code.size_append, ← Nat.add_assoc]
      rfl
    rw [c1.memory, hend] at c2
    refine ⟨_, _, c2, Memory.size_setWord .., fun _ => ⟨slot, off, hreq, hoff, ?_⟩,
      fun y hy hout => ?_⟩
    · rwa [Memory.word_setWord_self _ hinside]
    · exact Memory.byte_setWord_of_ne _ hinside hy (hout hm slot off hreq hoff)

end Emit

end MoonBackend
