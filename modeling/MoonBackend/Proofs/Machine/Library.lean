import MoonBackend.Proofs.Code.Execution
import MoonBackend.Proofs.Machine.Routines

/-!
# The library at work

A text that was written to memory is read back up to its first zero byte, and bytes outside of it
stay. From this, one execution lemma for each routine of the library.
-/

namespace MoonBackend

namespace Memory

/-! ### Texts in memory -/

/-- The text stands at a position and is ended by a zero byte. -/
def Spells (m : Memory) : Int → List UInt8 → Prop
  | x, [] => m.byte x = 0
  | x, b :: bs => (m.byte x = b ∧ b ≠ 0) ∧ m.Spells (x + 1) bs

theorem ofInt_add_one (x : Int) : Int32.ofInt x + 1 = Int32.ofInt (x + 1) := by
  rw [Int32.ofInt_add]
  rfl

theorem inside_of_cons {m : Memory} {x : Int} {b : UInt8} {bs : List UInt8}
    (h : m.Inside x (b :: bs).length) : m.Inside x 1 ∧ m.Inside (x + 1) bs.length := by
  rw [List.length_cons] at h
  exact ⟨h.mono (by omega) (by omega), h.mono (by omega) (by omega)⟩

theorem putBytes_cons {m : Memory} {x : Int} {b : UInt8} {bs : List UInt8}
    (h : m.Inside x (b :: bs).length) :
    m.putBytes (Int32.ofInt x) (b :: bs)
      = (m.putByte (Int32.ofInt x) b).putBytes (Int32.ofInt (x + 1)) bs := by
  have hc := (inside_of_cons h).1.check (by decide)
  rw [show Int32.ofNat 1 = 1 from rfl] at hc
  rw [putBytes, hc, ← ofInt_add_one]

theorem putBytes_ok {m : Memory} {x : Int} {bs : List UInt8} (h : m.Inside x bs.length) :
    (m.putBytes (Int32.ofInt x) bs).1 = none := by
  induction bs generalizing m x with
  | nil => rfl
  | cons b bs ih =>
    rw [putBytes_cons h]
    exact ih ((inside_of_cons h).2.of_size (size_putByte ..))

theorem byte_putBytes_of_ne {m : Memory} {x y : Int} {bs : List UInt8} (h : m.Inside x bs.length)
    (hy : 0 ≤ y) (hne : y < x ∨ x + bs.length ≤ y) :
    (m.putBytes (Int32.ofInt x) bs).2.byte y = m.byte y := by
  induction bs generalizing m x with
  | nil => rfl
  | cons b bs ih =>
    obtain ⟨h1, h2⟩ := inside_of_cons h
    rw [List.length_cons] at hne
    rw [putBytes_cons h, ih (h2.of_size (size_putByte ..)) (by omega), byte_putByte b h1 hy,
      if_neg (by omega)]

theorem spells_putText {m : Memory} {x : Int} {text : List UInt8}
    (h : m.Inside x (text.length + 1)) :
    (m.putText (Int32.ofInt x) text).2.Spells x (text.takeWhile (· != 0)) := by
  rw [putText]
  induction text generalizing m x with
  | nil =>
    rw [List.nil_append, putBytes_cons h, putBytes]
    show (m.putByte (Int32.ofInt x) 0).byte x = 0
    rw [byte_putByte 0 h h.nonneg, if_pos rfl]
  | cons b text ih =>
    have hlen : m.Inside x (b :: (text ++ [0])).length := by simpa using h
    obtain ⟨h1, h2⟩ := inside_of_cons hlen
    have h2' := h2.of_size (size_putByte m (Int32.ofInt x) b)
    have hfirst : (m.putBytes (Int32.ofInt x) (b :: (text ++ [0]))).2.byte x = b := by
      rw [putBytes_cons hlen, byte_putBytes_of_ne h2' h.nonneg (by omega),
        byte_putByte b h1 h.nonneg, if_pos rfl]
    by_cases hb : b = 0
    · subst hb
      exact hfirst
    · rw [List.takeWhile_cons_of_pos (by simpa using hb), List.cons_append]
      refine ⟨⟨hfirst, hb⟩, ?_⟩
      rw [putBytes_cons hlen]
      exact ih (by simpa using h2')

/-- What a writing of a text does to the memory. -/
structure Written (m : Memory) (x : Int) (text : List UInt8) (m' : Memory) : Prop where
  size : m'.size = m.size
  spells : m'.Spells x (text.takeWhile (· != 0))
  byte : ∀ y, 0 ≤ y → (y < x ∨ x + (text.length + 1) ≤ y) → m'.byte y = m.byte y

theorem written_putText {m : Memory} {x : Int} {text : List UInt8}
    (h : m.Inside x (text.length + 1)) :
    (m.putText (Int32.ofInt x) text).1 = none
      ∧ m.Written x text (m.putText (Int32.ofInt x) text).2 := by
  have hlen : m.Inside x (text ++ [0]).length := by simpa using h
  refine ⟨putBytes_ok hlen, size_putBytes .., spells_putText h, ?_⟩
  intro y hy hne
  refine byte_putBytes_of_ne hlen hy ?_
  rw [List.length_append, List.length_singleton]
  omega

theorem textFrom_of_spells {m : Memory} {x : Int} {text done : List UInt8} {fuel : Nat}
    (h : m.Spells x text) (hin : m.Inside x (text.length + 1)) (hf : text.length < fuel) :
    m.textFrom fuel (Int32.ofInt x) done = .ok (done.reverse ++ text) := by
  obtain ⟨fuel, rfl⟩ := Nat.exists_eq_add_one_of_ne_zero (Nat.ne_of_gt (Nat.zero_lt_of_lt hf))
  induction text generalizing x done fuel with
  | nil =>
    have hz : m.byte x = 0 := h
    rw [textFrom, Inside.loadByte hin, hz]
    simp
  | cons b text ih =>
    obtain ⟨⟨hb, hne⟩, hrest⟩ := h
    rw [List.length_cons] at hin hf
    have hin1 : m.Inside x 1 := hin.mono (by omega) (by omega)
    obtain ⟨fuel, rfl⟩ := Nat.exists_eq_add_one_of_ne_zero (show fuel ≠ 0 by omega)
    rw [textFrom, hin1.loadByte, hb]
    have hbeq : (b == 0) = false := by simpa using hne
    simp only [hbeq, Bool.false_eq_true, if_false]
    rw [ofInt_add_one, ih hrest (hin.mono (by omega) (by omega)) fuel (by omega)]
    simp

theorem getText_of_spells {m : Memory} {x : Int} {text : List UInt8} (h : m.Spells x text)
    (hin : m.Inside x (text.length + 1)) : m.getText (Int32.ofInt x) = .ok text := by
  have hup := hin.upper
  have hlow := hin.nonneg
  rw [getText, textFrom_of_spells h hin (by omega)]
  rfl

theorem spells_congr {m m' : Memory} {x : Int} {text : List UInt8} (h : m.Spells x text)
    (hb : ∀ y, x ≤ y → y < x + (text.length + 1) → m'.byte y = m.byte y) : m'.Spells x text := by
  induction text generalizing x with
  | nil => exact (hb x (by omega) (by simp)).trans h
  | cons b text ih =>
    rw [List.length_cons] at hb
    refine ⟨⟨(hb x (by omega) (by omega)).trans h.1.1, h.1.2⟩, ih h.2 ?_⟩
    intro y h0 h1
    exact hb y (by omega) (by omega)

end Memory

namespace Machine

/-! ### Entering and leaving a routine -/

/-- The machine runs at a site, stands at the entry of a routine and will go on at an address. -/
structure Calls (m : Machine) (site : Site) (r : Routine) (b : Nat) : Prop where
  image : m.image = site.image
  runtime : m.runtime = site.runtime
  running : m.halted = false
  routine : site.runtime.routine? m.pc = some r
  back : m.get ⟨15⟩ = Int32.ofNat b

theorem get_stackPointer (m : Machine) : m.regs.get stackPointer = m.get ⟨14⟩ := by
  obtain ⟨regs, pc, memory, halted, steps, input, output, image, runtime⟩ := m
  rfl

theorem get_linkRegister (m : Machine) : m.regs.get linkRegister = m.get ⟨15⟩ := by
  obtain ⟨regs, pc, memory, halted, steps, input, output, image, runtime⟩ := m
  rfl

theorem setResult_goto (m : Machine) (v : Int32) (a : Nat) :
    (m.setResult v).goto (Int32.ofNat a) = m.put ⟨13⟩ v a := by
  obtain ⟨regs, pc, memory, halted, steps, input, output, image, runtime⟩ := m
  have hi : Register.index? ⟨13⟩ = some 13 := by decide
  have hset : regs.setIfInBounds 13 v = regs.set resultRegister v := by
    apply Vector.ext
    intro i hi
    rw [Vector.getElem_setIfInBounds, Vector.getElem_set]
    rfl
  simp only [put, hi, setResult, goto, setReg, if_neg (show ¬ ((13 : UInt8) == 0) = true by decide)]
  rw [← hset]
  rfl

theorem get_setResult_of_ne {m : Machine} {v : Int32} {q : Register} (hq : q ≠ ⟨13⟩) :
    (m.setResult v).get q = m.get q := by
  have hp : (m.put ⟨13⟩ v 0).get q = m.get q := get_put_of_ne hq
  rwa [← setResult_goto, get_goto] at hp

theorem param_eq {m : Machine} {x : Int} {off : Int64} (hx : m.get ⟨14⟩ = Int32.ofInt x)
    (hin : m.memory.Inside (x + off.toInt) 4) :
    m.param off = .ok (m.memory.word (x + off.toInt)) := by
  simp only [param, get_stackPointer, hx, toInt32_eq_ofInt, ← Int32.ofInt_add, loadWord,
    hin.loadWord, Except.mapError]

theorem getText_eq {m : Machine} {y : Int} {text : List UInt8} (ht : m.memory.Spells y text)
    (hin : m.memory.Inside y (text.length + 1)) : m.getText (Int32.ofInt y) = .ok text := by
  rw [getText, Memory.getText_of_spells ht hin]
  rfl

theorem on_put {m : Machine} {site : Site} {r : Register} {v : Int32} {b : Nat}
    (hi : m.image = site.image) (hr : m.runtime = site.runtime) (hh : m.halted = false) :
    (m.put r v b).On site b := by
  obtain ⟨regs, he⟩ := put_eq m r v b
  rw [he]
  exact ⟨hi, hr, hh, rfl⟩

section
variable {m : Machine} {site : Site} {b : Nat} {x y : Int}

/-- What a routine leaves: the machine is back, and only the result register may have changed. -/
structure Returned (site : Site) (m : Machine) (b : Nat) (m' : Machine) : Prop where
  exec : Exec m m'
  on : m'.On site b
  get : ∀ q, q ≠ ⟨13⟩ → m'.get q = m.get q

theorem Calls.exec {r : Routine} {m' : Machine} (h : m.Calls site r b)
    (hc : m.call r = (none, m')) (hl : m'.get ⟨15⟩ = m.get ⟨15⟩) :
    Exec m (m'.goto (Int32.ofNat b)) := by
  have hx := exec_call h.running (by rw [h.runtime]; exact h.routine) hc
  rwa [get_linkRegister, hl, h.back] at hx

theorem Calls.exec_intToString (h : m.Calls site .intToString b) (hx : m.get ⟨14⟩ = Int32.ofInt x)
    (hv : m.memory.Inside (x + site.runtime.valueParam.toInt) 4)
    (hb : m.memory.Inside (x + site.runtime.bufferParam.toInt) 4)
    (hy : m.memory.word (x + site.runtime.bufferParam.toInt) = Int32.ofInt y) {text : List UInt8}
    (ht : Text.textBytes (Text.decimal
      (m.memory.word (x + site.runtime.valueParam.toInt)).toInt) = text)
    (hin : m.memory.Inside y (text.length + 1)) :
    ∃ m', Returned site m b m' ∧ m'.get ⟨13⟩ = Int32.ofInt y
      ∧ m.memory.Written y text m'.memory ∧ m'.input = m.input ∧ m'.output = m.output := by
  obtain ⟨hnone, hw⟩ := Memory.written_putText hin
  have hcall : m.call .intToString
      = (none, ({ m with memory := (m.memory.putText (Int32.ofInt y) text).2 } : Machine).setResult
        (Int32.ofInt y)) := by
    rw [← h.runtime] at hv hb hy ht
    rw [← ht] at hnone ⊢
    exact call_intToString (param_eq hx hv) (by rw [param_eq hx hb, hy]) hnone
  have he := h.exec hcall (get_setResult_of_ne (by decide))
  rw [setResult_goto] at he
  refine ⟨_, ⟨he, ?_, ?_⟩, get_put_self (by decide), ?_, ?_, ?_⟩
  · exact on_put h.image h.runtime h.running
  · intro q hq
    exact get_put_of_ne hq
  · rw [memory_put]
    exact hw
  · rw [input_put]
  · rw [output_put]

theorem Calls.exec_printString (h : m.Calls site .printString b) (hx : m.get ⟨14⟩ = Int32.ofInt x)
    (hv : m.memory.Inside (x + site.runtime.valueParam.toInt) 4)
    (hy : m.memory.word (x + site.runtime.valueParam.toInt) = Int32.ofInt y) {text : List UInt8}
    (ht : m.memory.Spells y text) (hin : m.memory.Inside y (text.length + 1)) :
    ∃ m', Returned site m b m' ∧ m'.memory = m.memory ∧ m'.input = m.input
      ∧ m'.output = m.output ++ text := by
  have hcall : m.call .printString = (none, { m with output := m.output ++ text }) := by
    rw [← h.runtime] at hv hy
    exact call_printString (by rw [param_eq hx hv, hy]) (getText_eq ht hin)
  exact ⟨_, ⟨h.exec hcall rfl, ⟨h.image, h.runtime, h.running, rfl⟩, fun _ _ => rfl⟩, rfl, rfl, rfl⟩

theorem Calls.exec_readString (h : m.Calls site .readString b) (hx : m.get ⟨14⟩ = Int32.ofInt x)
    (hv : m.memory.Inside (x + site.runtime.valueParam.toInt) 4)
    (hy : m.memory.word (x + site.runtime.valueParam.toInt) = Int32.ofInt y) {text : List UInt8}
    (hroom : ¬ site.runtime.bufferSize - 1 < 0)
    (ht : (chomp (splitLine m.input).1).take (site.runtime.bufferSize - 1).toNatClampNeg = text)
    (hin : m.memory.Inside y (text.length + 1)) :
    ∃ m', Returned site m b m' ∧ m.memory.Written y text m'.memory
      ∧ m'.input = (splitLine m.input).2 ∧ m'.output = m.output := by
  obtain ⟨hnone, hw⟩ := Memory.written_putText hin
  have hcall : m.call .readString
      = (none, { m with
          memory := (m.memory.putText (Int32.ofInt y) text).2
          input := (splitLine m.input).2 }) := by
    rw [← h.runtime] at hv hy hroom ht
    rw [call_readString (by rw [param_eq hx hv, hy]) hroom ht, hnone]
    rfl
  exact ⟨_, ⟨h.exec hcall rfl, ⟨h.image, h.runtime, h.running, rfl⟩, fun _ _ => rfl⟩, hw, rfl, rfl⟩

theorem Calls.exec_stringToInt (h : m.Calls site .stringToInt b) (hx : m.get ⟨14⟩ = Int32.ofInt x)
    (hv : m.memory.Inside (x + site.runtime.valueParam.toInt) 4)
    (hy : m.memory.word (x + site.runtime.valueParam.toInt) = Int32.ofInt y) {text : List UInt8}
    (ht : m.memory.Spells y text) (hin : m.memory.Inside y (text.length + 1)) :
    ∃ m', Returned site m b m' ∧ m'.get ⟨13⟩ = numberIn text ∧ m'.memory = m.memory
      ∧ m'.input = m.input ∧ m'.output = m.output := by
  have hcall : m.call .stringToInt = (none, m.setResult (numberIn text)) := by
    rw [← h.runtime] at hv hy
    exact call_stringToInt (by rw [param_eq hx hv, hy]) (getText_eq ht hin)
  have he := h.exec hcall (get_setResult_of_ne (by decide))
  rw [setResult_goto] at he
  have hon := on_put (r := ⟨13⟩) (v := numberIn text) (b := b) h.image h.runtime h.running
  exact ⟨_, ⟨he, hon, fun q hq => get_put_of_ne hq⟩, get_put_self (by decide), memory_put ..,
    input_put .., output_put ..⟩

end

end Machine

end MoonBackend
